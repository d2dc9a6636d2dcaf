import Mathlib.Data.List.Chain
import ZeroProcHot.MsrEdit.Keys
import ZeroProcHot.MsrEdit.Marks

/-!
# The menu with the key reader of `MSREdit.c`

This reader ends with the value it has on Enter and on Esc, and never with 254 or 255, by which the
menu knows them: the menu does not return (`menu_never_returns`). A digit above `max` stays its value
until another key, so that Enter, Left or Right right after it takes the menu to an item that it does
not have; nothing else does (`menu_stays_iff`).
-/

namespace ZeroProcHot.MsrEdit

open Interact Efi

/-- The keys that end the reader with the value it has. -/
def accepts (key : InputKey) : Prop :=
  hexDigit key.unicodeChar = none ∧ key.scanCode ≠ scanUp ∧ key.scanCode ≠ scanDown ∧
    (key.scanCode = scanLeft ∨ key.scanCode = scanRight ∨ key.unicodeChar = charCarriageReturn)

instance (key : InputKey) : Decidable (accepts key) :=
  inferInstanceAs (Decidable (_ ∧ _ ∧ _ ∧ _))

/-- The keys that end it with the value it was called with. -/
def escapes (key : InputKey) : Prop :=
  hexDigit key.unicodeChar = none ∧ key.scanCode = scanEsc ∧
    key.unicodeChar ≠ charCarriageReturn

/-- Enter and the arrows that accept are not Esc. -/
theorem escapes_not_accepts {key : InputKey} (h : escapes key) : ¬ accepts key := by
  rintro ⟨_, _, _, left | right | enter⟩
  · exact absurd (left.symm.trans h.2.1) (by decide)
  · exact absurd (right.symm.trans h.2.1) (by decide)
  · exact h.2.2 enter

instance (key : InputKey) : Decidable (escapes key) :=
  inferInstanceAs (Decidable (_ ∧ _ ∧ _))

/-- What a key does to the reader. -/
inductive Pressed (max : UInt64) (b : Board) (key : InputKey) : Prop where
  | digit (digit : UInt8) (is : hexDigit key.unicodeChar = some digit)
      (eq : press max b key = { b with keyint := digit })
  | move (keyint : UInt8) (stays : ¬ accepts key ∧ ¬ escapes key)
      (is : hexDigit key.unicodeChar = none)
      (within : keyint = stepUp max b.keyint ∨ keyint = stepDown max b.keyint ∨ keyint = b.current)
      (eq : press max b key = { b with keyint })
  | accept (is : accepts key) (eq : press max b key = { b with current := b.keyint, ended := true })
  | escape (is : escapes key) (eq : press max b key = { b with keyint := b.current, ended := true })

/-- Each key is a digit, an arrow, an end or unknown. -/
theorem pressed (max : UInt64) (b : Board) (key : InputKey) : Pressed max b key := by
  cases hd : hexDigit key.unicodeChar with
  | some digit => exact .digit digit hd (by unfold press; rw [hd])
  | none =>
    by_cases up : key.scanCode = scanUp
    · refine .move (stepUp max b.keyint) ⟨fun h => h.2.1 up, fun h => ?_⟩ hd (.inl rfl) ?_
      · exact absurd (up.symm.trans h.2.1) (by decide)
      · unfold press
        rw [hd]
        exact if_pos up
    · by_cases down : key.scanCode = scanDown
      · refine .move (stepDown max b.keyint) ⟨fun h => h.2.2.1 down, fun h => ?_⟩ hd
          (.inr (.inl rfl)) ?_
        · exact absurd (down.symm.trans h.2.1) (by decide)
        · unfold press
          rw [hd]
          exact (if_neg up).trans (if_pos down)
      · by_cases accept : key.scanCode = scanLeft ∨ key.scanCode = scanRight ∨
            key.unicodeChar = charCarriageReturn
        · refine .accept ⟨hd, up, down, accept⟩ ?_
          unfold press
          rw [hd]
          refine (if_neg up).trans ((if_neg down).trans ?_)
          rcases accept with left | right | enter
          · exact if_pos left
          · by_cases left : key.scanCode = scanLeft
            · exact if_pos left
            · exact (if_neg left).trans (if_pos right)
          · by_cases left : key.scanCode = scanLeft
            · exact if_pos left
            · by_cases right : key.scanCode = scanRight
              · exact (if_neg left).trans (if_pos right)
              · exact (if_neg left).trans ((if_neg right).trans (if_pos enter))
        · obtain ⟨left, rest⟩ := not_or.mp accept
          obtain ⟨right, enter⟩ := not_or.mp rest
          have tests : press max b key =
              if key.scanCode = scanEsc then { b with keyint := b.current, ended := true }
              else { b with keyint := b.current } := by
            unfold press
            rw [hd]
            dsimp only
            rw [if_neg up, if_neg down, if_neg left, if_neg right, if_neg enter]
          by_cases esc : key.scanCode = scanEsc
          · exact .escape ⟨hd, esc, enter⟩ (tests.trans (if_pos esc))
          · refine .move b.current ⟨fun h => accept h.2.2.2, fun h => esc h.2.1⟩ hd
              (.inr (.inr rfl)) (tests.trans (if_neg esc))

/-! ## The menu does not return -/

/-- The values of the reader are at most 15. -/
def Small (b : Board) : Prop := b.current.toNat ≤ 15 ∧ b.keyint.toNat ≤ 15

theorem small_item {item : UInt8} (h : item ≤ 4) : item.toNat ≤ 15 :=
  Nat.le_trans (UInt8.le_iff_toNat_le.mp h) (by decide)

/-- By the cases of the key: a digit is at most 15, and an arrow stays within 4. -/
theorem press_small {b : Board} (h : Small b) (key : InputKey) : Small (press 4 b key) := by
  obtain ⟨current, keyint⟩ := h
  have within {k : UInt8} (h : k.toUInt64 ≤ 4) : k.toNat ≤ 15 :=
    Nat.le_trans (toNat_le h) (by decide)
  cases pressed 4 b key with
  | digit digit is eq =>
    rw [eq]
    exact ⟨current, hexDigit_le is⟩
  | move keyint' _ _ value eq =>
    rw [eq]
    refine ⟨current, ?_⟩
    rcases value with rfl | rfl | rfl
    · exact within (stepUp_le (by decide) b.keyint)
    · exact within (stepDown_le (by decide) b.keyint)
    · exact current
  | accept _ eq =>
    rw [eq]
    exact ⟨keyint, keyint⟩
  | escape _ eq =>
    rw [eq]
    exact ⟨current, current⟩

section Never

variable {W : Type} {E : Env (firmware Point) W} {w : W}

/-- A round of a reader may be given any key. -/
theorem wp_keyIn {σ β : Type} {f : σ → InputKey → σ ⊕ β} {s : σ} {Q : σ ⊕ β → W → Prop}
    (h : ∀ key w, Q (f s key) w) : wp E (fun _ _ _ => True) (keyIn f s) Q w := by
  unfold keyIn
  simp only [wp_bind, wp_waitForEvent, wp_keyLocal, wp_readKeyStroke, wp_pure, true_and]
  intro _ _ _ _ _ _ _ _
  exact h _ _

/-- The reader returns no sentinel. -/
theorem wp_hexBoard {current : UInt8} (h : current.toNat ≤ 15) :
    wp E (fun _ _ _ => True) (hexBoard current 4) (fun item _ => item.toNat ≤ 15) w := by
  refine wp_iter (fun b _ => Small b) ⟨h, h⟩ fun b w hb => wp_keyIn fun key w => ?_
  have small := press_small hb key
  unfold Board.turn
  split
  · exact small
  · exact small.2

theorem wp_printXY (string : String) (x y : Nat) :
    wp E (fun _ _ _ => True) (printXY string x y) (fun _ _ => True) w := by
  unfold printXY setCursor tcOPrint
  simp only [wp_bind, wp_setCursorPosition, wp_outputString, and_self, implies_true]

theorem wp_printMenu : wp E (fun _ _ _ => True) printMenu (fun _ _ => True) w := by
  unfold printMenu setCursor tcOPrint
  simp only [wp_bind, wp_setCursorPosition, wp_outputString, true_and]
  intro _ _ _ _
  refine wp_forM (fun _ => True) trivial fun i _ w _ => ?_
  rw [wp_bind]
  refine wp_mono (fun _ w _ => ?_) (wp_printXY _ _ _)
  simp only [wp_bind, wp_outputString, and_self, implies_true]

/-- **A round of the menu ends in another round**, whatever the firmware answers. -/
theorem wp_select {current : UInt8} (h : current.toNat ≤ 15) :
    wp E (fun _ _ _ => True) (select hexBoard current)
      (afterRound (fun current _ => current.toNat ≤ 15) fun _ _ => False) w := by
  have arrows (w : W) :
      wp E (fun _ _ _ => True) (printArrows current) (fun _ _ => True) w :=
    wp_forM (fun _ => True) trivial fun i _ w _ => wp_printXY _ _ _
  unfold select
  simp only [wp_bind, wp_reach, true_and]
  intro w _
  refine wp_mono (fun _ w _ => ?_) (arrows w)
  simp only [wp_bind, wp_reach, true_and]
  intro w _
  refine wp_mono (fun item w hi => ?_) (wp_hexBoard h)
  obtain ⟨esc, enter⟩ := not_or.mp (not_sentinel hi)
  rw [if_neg esc, if_neg enter]
  exact hi

/-- The menu returns only for a key reader that answers 254 or 255, which this one does not. -/
theorem wp_menu {selected : UInt8} (h : selected.toNat ≤ 15) :
    wp E (fun _ _ _ => True) (menu hexBoard selected) (fun _ _ => False) w := by
  unfold menu
  rw [wp_bind]
  refine wp_mono (fun _ w _ => ?_) wp_printMenu
  exact wp_iter (fun current _ => current.toNat ≤ 15) h fun current w hc => wp_select hc

/-- **The menu never returns**, whatever the firmware answers, and so `efi_main` does not reach its
end. -/
theorem menu_never_returns {selected : UInt8} (h : selected ≤ 4) :
    (∀ w' item, ¬ Returns E w (menu hexBoard selected) w' item) ∧
      ∀ w' status, ¬ Returns E w efiMain w' status := by
  constructor
  · rintro w' item ⟨tr, run⟩
    exact (wp_sound run (wp_menu (small_item h))).2 item rfl
  · rintro w' status ⟨tr, run⟩
    have never : wp E (fun _ _ _ => True) efiMain (fun _ _ => False) w := by
      unfold efiMain tcOPrint
      simp only [wp_bind, wp_outputString, true_and]
      intro _ _ _ _
      exact wp_mono (fun _ _ h => h.elim) (wp_menu (by decide))
    exact (wp_sound run never).2 status rfl

end Never

/-- The menu does not return before Enter. -/
theorem menu_never_returns_enter :
    (∀ w' item, ¬ Returns console.env (keyed (.const ⟨0, 0⟩) 0 [⟨0, charCarriageReturn⟩])
      (menu hexBoard 1) w' item) ∧
      ∀ w' status, ¬ Returns console.env (keyed (.const ⟨0, 0⟩) 0 [⟨0, charCarriageReturn⟩]) efiMain
        w' status :=
  menu_never_returns (by decide)

/-- Enter does not end the menu. -/
theorem enter_keeps_menu :
    ¬ ∀ selected : UInt8, selected ≤ 4 → ∀ keys : List InputKey,
      (∃ key ∈ keys, key.unicodeChar = charCarriageReturn ∨ key.scanCode = scanEsc) →
        ∃ w' item, Returns console.env (keyed (.const ⟨0, 0⟩) 0 keys) (menu hexBoard selected) w' item := by
  intro returns
  obtain ⟨w', item, tr, run⟩ := returns 0 (by decide) [⟨0, charCarriageReturn⟩]
    ⟨_, List.mem_cons_self, .inl rfl⟩
  exact (wp_sound run (wp_menu (by decide))).2 item rfl

/-! ## The selection -/

theorem Board.turn_open {b : Board} (h : b.ended = false) : b.turn = .inl b := if_pos h

/-- A digit above `max`, and a key that takes its value. -/
def Stray (max : UInt64) (digit key : InputKey) : Prop := exceeds max digit ∧ accepts key

instance (max : UInt64) (digit key : InputKey) : Decidable (Stray max digit key) :=
  inferInstanceAs (Decidable (_ ∧ _))

/-- For a digit, exceeding is a comparison of numbers. -/
theorem exceeds_digit {max : UInt64} {key : InputKey} {digit : UInt8}
    (hd : hexDigit key.unicodeChar = some digit) : exceeds max key ↔ max.toNat < digit.toNat := by
  unfold exceeds
  rw [hd]
  constructor
  · rintro ⟨digit', same, above⟩
    cases same
    rw [UInt64.lt_iff_toNat_lt, UInt8.toNat_toUInt64] at above
    exact above
  · intro above
    refine ⟨digit, rfl, ?_⟩
    rw [UInt64.lt_iff_toNat_lt, UInt8.toNat_toUInt64]
    exact above

/-- A key that is no digit does not exceed. -/
theorem not_exceeds {max : UInt64} {key : InputKey} (hd : hexDigit key.unicodeChar = none) :
    ¬ exceeds max key := by
  rintro ⟨digit, same, _⟩
  rw [hd] at same
  cases same

/-- A digit does not end the reader. -/
theorem not_accepts {key : InputKey} {digit : UInt8}
    (hd : hexDigit key.unicodeChar = some digit) : ¬ accepts key := by
  intro h
  rw [h.1] at hd
  cases hd

/-- The state of the reader at its call. -/
def Board.start (current : UInt8) : Board := ⟨current, current, false⟩

theorem small_start {item : UInt8} (h : item ≤ 4) : Small (Board.start item) :=
  ⟨small_item h, small_item h⟩

/-- The pass of the reader in the menu. -/
def pass (_ : UInt8) (b : Board) (key : InputKey) : Board ⊕ UInt8 := (press 4 b key).turn

/-- **The items the menu comes to are on the menu exactly when no digit above 4 is taken.** The
reader is at `b`, whose value may be such a digit. -/
theorem follow_onMenu_iff {current : UInt8} {b : Board} (hopen : b.ended = false) (small : Small b)
    (hb : b.current ≤ 4) (keys : List InputKey) :
    (∀ item ∈ (follow Board.start pass current b keys).steps, item ≤ 4) ↔
      (4 < b.keyint.toNat → ∀ key ∈ keys.head?, ¬ accepts key) ∧
        keys.IsChain fun digit key => ¬ Stray 4 digit key := by
  induction keys generalizing current b with
  | nil =>
    refine iff_of_true (fun _ h => absurd h List.not_mem_nil) ⟨fun _ _ h => ?_, List.isChain_nil⟩
    cases h
  | cons key keys ih =>
    rw [follow, List.isChain_cons]
    have small' := press_small small key
    have start {item : UInt8} (hi : item ≤ 4) :
        (∀ x ∈ item :: (follow Board.start pass item (Board.start item) keys).steps, x ≤ 4) ↔
          keys.IsChain fun digit key => ¬ Stray 4 digit key := by
      have value : item.toNat ≤ 4 := UInt8.le_iff_toNat_le.mp hi
      have onMenu := @ih item (Board.start item) rfl (small_start hi) hi
      rw [List.forall_mem_cons, onMenu, and_iff_right hi]
      exact and_iff_right fun above => absurd above (Nat.not_lt.mpr value)
    cases pressed 4 b key with
    | digit digit is eq =>
      have first : 4 < b.keyint.toNat → ∀ k ∈ (key :: keys).head?, ¬ accepts k := by
        intro _ k hk
        cases hk
        exact not_accepts is
      have pair : (∀ y ∈ keys.head?, ¬ Stray 4 key y) ↔
          (4 < digit.toNat → ∀ y ∈ keys.head?, ¬ accepts y) := by
        have above : exceeds 4 key ↔ 4 < digit.toNat := exceeds_digit is
        unfold Stray
        rw [above]
        exact ⟨fun h hd y hy ha => h y hy ⟨hd, ha⟩, fun h y hy both => h both.1 y hy both.2⟩
      have passed : pass current b key = .inl { b with keyint := digit } := by
        unfold pass
        rw [eq]
        exact Board.turn_open hopen
      rw [eq] at small'
      rw [passed]
      dsimp only
      have later := @ih current { b with keyint := digit } hopen small' hb
      rw [later, and_iff_right first, pair]
    | move keyint stays is value eq =>
      have first : 4 < b.keyint.toNat → ∀ k ∈ (key :: keys).head?, ¬ accepts k := by
        intro _ k hk
        cases hk
        exact stays.1
      have pair : ∀ y ∈ keys.head?, ¬ Stray 4 key y := fun _ _ both => not_exceeds is both.1
      have within : keyint.toNat ≤ 4 := by
        rcases value with rfl | rfl | rfl
        · exact toNat_le (stepUp_le (by decide) b.keyint)
        · exact toNat_le (stepDown_le (by decide) b.keyint)
        · exact UInt8.le_iff_toNat_le.mp hb
      have passed : pass current b key = .inl { b with keyint } := by
        unfold pass
        rw [eq]
        exact Board.turn_open hopen
      rw [eq] at small'
      rw [passed]
      dsimp only
      have later := @ih current { b with keyint } hopen small' hb
      rw [later, and_iff_right first, and_iff_right pair]
      exact and_iff_right fun above => absurd above (Nat.not_lt.mpr within)
    | accept is eq =>
      have pair : ∀ y ∈ keys.head?, ¬ Stray 4 key y := fun _ _ both => not_exceeds is.1 both.1
      have passed : pass current b key = .inr b.keyint := by
        unfold pass
        rw [eq]
        rfl
      rw [passed, and_iff_right pair]
      dsimp only [onItem]
      rw [if_neg (not_sentinel small.2)]
      by_cases above : 4 < b.keyint.toNat
      · refine iff_of_false (fun h => ?_) fun h => h.1 above key rfl is
        have value := UInt8.le_iff_toNat_le.mp (h b.keyint List.mem_cons_self)
        have four : (4 : UInt8).toNat = 4 := rfl
        omega
      · have hi : b.keyint ≤ 4 := UInt8.le_iff_toNat_le.mpr (Nat.le_of_not_lt above)
        rw [and_iff_right fun h => absurd h above]
        exact start hi
    | escape is eq =>
      have pair : ∀ y ∈ keys.head?, ¬ Stray 4 key y := fun _ _ both => not_exceeds is.1 both.1
      have first : 4 < b.keyint.toNat → ∀ k ∈ (key :: keys).head?, ¬ accepts k := by
        intro _ k hk
        cases hk
        exact escapes_not_accepts is
      have passed : pass current b key = .inr b.current := by
        unfold pass
        rw [eq]
        rfl
      rw [passed, and_iff_right first, and_iff_right pair]
      dsimp only [onItem]
      rw [if_neg (not_sentinel small.1)]
      exact start hb

/-! ## One call of the reader -/

section Call

variable {max : UInt64} {b : Board}

/-- A key that does not end the reader keeps it open, with the value it was called with. -/
theorem press_open (hopen : b.ended = false) {key : InputKey}
    (stays : ¬ accepts key ∧ ¬ escapes key) :
    (press max b key).ended = false ∧ (press max b key).current = b.current := by
  cases pressed max b key with
  | digit _ _ eq =>
    rw [eq]
    exact ⟨hopen, rfl⟩
  | move _ _ _ _ eq =>
    rw [eq]
    exact ⟨hopen, rfl⟩
  | accept is _ => exact absurd is stays.1
  | escape is _ => exact absurd is stays.2

/-- After a digit above `max` it has that value. -/
theorem press_exceeds {key : InputKey} (h : exceeds max key) :
    max.toNat < (press max b key).keyint.toNat ∧ (press max b key).keyint.toNat ≤ 15 := by
  obtain ⟨digit, hd, above⟩ := h
  have value : (press max b key).keyint = digit := by
    unfold press
    rw [hd]
  rw [value]
  exact ⟨(exceeds_digit hd).mp ⟨digit, hd, above⟩, hexDigit_le hd⟩

/-- After any other key that does not end it, its value is at most `max`. -/
theorem press_within (hmax : max < 254) (hb : b.current.toNat ≤ max.toNat) {key : InputKey}
    (stays : ¬ accepts key ∧ ¬ escapes key) (h : ¬ exceeds max key) :
    (press max b key).keyint.toNat ≤ max.toNat := by
  cases pressed max b key with
  | digit digit is eq =>
    rw [eq]
    exact Nat.not_lt.mp fun above => h ((exceeds_digit is).mpr above)
  | move keyint _ _ value eq =>
    rw [eq]
    rcases value with rfl | rfl | rfl
    · exact toNat_le (stepUp_le hmax b.keyint)
    · exact toNat_le (stepDown_le hmax b.keyint)
    · exact hb
  | accept is _ => exact absurd is stays.1
  | escape is _ => exact absurd is stays.2

/-- The reader after some keys that do not end it. -/
theorem reads_open (hopen : b.ended = false) {pre : List InputKey}
    (stay : ∀ key ∈ pre, ¬ accepts key ∧ ¬ escapes key) (keys : List InputKey) :
    reads (fun b key => (press max b key).turn) b (pre ++ keys) =
        reads (fun b key => (press max b key).turn) (pre.foldl (press max) b) keys ∧
      (pre.foldl (press max) b).ended = false ∧
      (pre.foldl (press max) b).current = b.current := by
  induction pre generalizing b with
  | nil => exact ⟨rfl, hopen, rfl⟩
  | cons key pre ih =>
    obtain ⟨stays, stay⟩ := List.forall_mem_cons.mp stay
    obtain ⟨hopen', current⟩ := @press_open max b hopen key stays
    obtain ⟨read, still, same⟩ := ih hopen' stay
    rw [List.cons_append, reads, Board.turn_open hopen', List.foldl_cons]
    exact ⟨read, still, same.trans current⟩

/-- An accepting key returns the value. -/
theorem turn_accepts {key : InputKey} (h : accepts key) :
    (press max b key).turn = .inr b.keyint := by
  cases pressed max b key with
  | digit _ is _ => exact absurd h (not_accepts is)
  | move _ stays _ _ _ => exact absurd h stays.1
  | accept _ eq =>
    rw [eq]
    rfl
  | escape is _ => exact absurd h (escapes_not_accepts is)

/-- Esc returns what the reader was called with. -/
theorem turn_escapes {key : InputKey} (h : escapes key) :
    (press max b key).turn = .inr b.current := by
  cases pressed max b key with
  | digit _ is _ =>
    rw [h.1] at is
    cases is
  | move _ stays _ _ _ => exact absurd h stays.2
  | accept is _ => exact absurd is (escapes_not_accepts h)
  | escape _ eq =>
    rw [eq]
    rfl

/-- The value that the reader has after some keys, against the last of them. -/
theorem value_iff {current : UInt8} (hc : current.toNat ≤ max.toNat) {pre : List InputKey}
    (stay : ∀ key ∈ pre, ¬ accepts key ∧ ¬ escapes key) {item : UInt8}
    (hi : item = (pre.foldl (press max) (Board.start current)).keyint) :
    (item.toUInt64 ≤ max ∨ item = 254 ∨ item = 255) ↔
      ∀ digit ∈ pre.getLast?, ¬ exceeds max digit := by
  rcases List.eq_nil_or_concat' pre with rfl | ⟨init, last, rfl⟩
  · rw [hi]
    exact iff_of_true (.inl (toUInt64_le hc)) fun _ h => by cases h
  · obtain ⟨stayInit, stayLast⟩ := List.forall_mem_append.mp stay
    have stays := stayLast last List.mem_cons_self
    obtain ⟨_, _, same⟩ := @reads_open max (Board.start current) rfl init stayInit []
    rw [List.getLast?_concat]
    rw [List.foldl_append, List.foldl_cons, List.foldl_nil] at hi
    by_cases above : exceeds max last
    · have value : max.toNat < item.toNat ∧ item.toNat ≤ 15 := hi ▸ press_exceeds above
      refine iff_of_false (fun h => ?_) fun h => h last rfl above
      rcases h with within | sentinel
      · have within' := toNat_le within
        omega
      · exact not_sentinel value.2 sentinel
    · refine iff_of_true ?_ fun digit hd => by cases hd; exact above
      by_cases hmax : max < 254
      · rw [hi]
        exact .inl (toUInt64_le (press_within hmax (by rw [same]; exact hc) stays above))
      · by_cases top : item = 255
        · exact .inr (.inr top)
        · have large : 254 ≤ max.toNat := UInt64.le_iff_toNat_le.mp (UInt64.not_lt.mp hmax)
          have byte := item.toNat_lt
          have other : item.toNat ≠ 255 := fun same => top (UInt8.toNat_inj.mp same)
          exact .inl (toUInt64_le (by omega))

/-- The reader takes the keys up to the first pass that ends. -/
theorem hexBoard_turn {current item : UInt8} {pre : List InputKey}
    (stay : ∀ key ∈ pre, ¬ accepts key ∧ ¬ escapes key) {key : InputKey}
    (turn : (press max (pre.foldl (press max) (Board.start current)) key).turn = .inr item)
    (rest : List InputKey) (junk : Stream' InputKey) (v : UInt64) :
    Returns console.env (keyed junk v (pre ++ key :: rest)) (hexBoard current max)
      (leaving junk v (pre ++ key :: rest) rest) item := by
  obtain ⟨read, _, _⟩ := @reads_open max (Board.start current) rfl pre stay (key :: rest)
  have call : session ((pre ++ key :: rest).length + 1) (hexBoard current max)
      (keyed junk v (pre ++ key :: rest)) =
        settled junk v (pre ++ key :: rest)
          (reads (fun b key => (press max b key).turn) (Board.start current)
            (pre ++ key :: rest)) :=
    session_reader _ (Board.start current) (Nat.lt_succ_self _)
  rw [read, reads, turn] at call
  exact returns_of_play call

/-- **A call of the reader.** It takes the keys up to the first that ends it, and returns a value up to
`max` or a sentinel exactly when no digit above `max` is taken. -/
theorem hexBoard_call {current : UInt8} (hc : current.toUInt64 ≤ max) {pre : List InputKey}
    (stay : ∀ key ∈ pre, ¬ accepts key ∧ ¬ escapes key) {key : InputKey}
    (hl : accepts key ∨ escapes key) (rest : List InputKey) (junk : Stream' InputKey)
    (v : UInt64) :
    ∃ item, Returns console.env (keyed junk v (pre ++ key :: rest)) (hexBoard current max)
        (leaving junk v (pre ++ key :: rest) rest) item ∧
      ((item.toUInt64 ≤ max ∨ item = 254 ∨ item = 255) ↔
        ∀ digit ∈ pre.getLast?, ¬ Stray max digit key) := by
  obtain ⟨_, _, same⟩ := @reads_open max (Board.start current) rfl pre stay (key :: rest)
  rcases hl with accept | escape
  · refine ⟨_, hexBoard_turn stay (turn_accepts accept) rest junk v, ?_⟩
    rw [value_iff (toNat_le hc) stay rfl]
    unfold Stray
    simp only [accept, and_true]
  · refine ⟨_, hexBoard_turn stay (turn_escapes escape) rest junk v, ?_⟩
    rw [same]
    exact iff_of_true (.inl hc) fun digit _ stray => escapes_not_accepts escape stray.2

end Call

theorem reader (current : UInt8) :
    hexBoard current 4 = Prog.iter (keyIn (pass current)) (Board.start current) := rfl

/-- **The menu stays on its items exactly when no digit above 4 is directly followed by Left, Right or
Enter.** A call of the reader with another `max` returns a value up to it, or a sentinel, exactly when
the key that ends it does not take a digit above that `max`. The largest `max` of its type is left
out, for which Up and Down divide by zero. -/
theorem menu_stays_iff {selected : UInt8} (h : selected ≤ 4) (d : Display)
    (junk : Stream' InputKey) (v : UInt64) (keys : List InputKey) :
    ((∀ tr w' out, Run console.env (keyed junk v keys) (menu hexBoard selected) tr w' out →
      Faithful d (drawings tr)) ↔ keys.IsChain fun digit key => ¬ Stray 4 digit key) ∧
    ∀ (max : UInt64) (current : UInt8) (pre : List InputKey) (key : InputKey)
      (rest : List InputKey), max < 0xFFFFFFFFFFFFFFFF → current.toUInt64 ≤ max →
      (∀ x ∈ pre, ¬ accepts x ∧ ¬ escapes x) → accepts key ∨ escapes key →
      ∃ item, Returns console.env (keyed junk v (pre ++ key :: rest)) (hexBoard current max)
          (leaving junk v (pre ++ key :: rest) rest) item ∧
        ((item.toUInt64 ≤ max ∨ item = 254 ∨ item = 255) ↔
          ∀ digit ∈ pre.getLast?, ¬ Stray max digit key) := by
  constructor
  · have value : selected.toNat ≤ 4 := UInt8.le_iff_toNat_le.mp h
    have items := @follow_onMenu_iff selected (Board.start selected) rfl (small_start h) h keys
    rw [menu_faithful_iff d junk v keys reader selected, List.forall_mem_cons, and_iff_right h]
    unfold trail
    rw [items]
    exact and_iff_right fun above => absurd above (Nat.not_lt.mpr value)
  · intro max current pre key rest _ hc stay hl
    exact hexBoard_call hc stay hl rest junk v

/-- '9', '2' and Enter keep the menu on its items. -/
theorem menu_stays_nineTwo :
    (∀ tr w' out, Run console.env
      (keyed (.const ⟨0, 0⟩) 0 [⟨0, chr '9'⟩, ⟨0, chr '2'⟩, ⟨0, charCarriageReturn⟩])
        (menu hexBoard 1) tr w' out → Faithful ⟨0, 0, fun _ _ => ' '⟩ (drawings tr)) ∧
    ∃ item, Returns console.env
        (keyed (.const ⟨0, 0⟩) 0 ([⟨0, chr '9'⟩, ⟨0, chr '2'⟩] ++ [⟨0, charCarriageReturn⟩]))
        (hexBoard 1 4)
        (leaving (.const ⟨0, 0⟩) 0 ([⟨0, chr '9'⟩, ⟨0, chr '2'⟩] ++ [⟨0, charCarriageReturn⟩]) [])
        item ∧ (item.toUInt64 ≤ 4 ∨ item = 254 ∨ item = 255) := by
  have menuAndCalls := menu_stays_iff (by decide : (1 : UInt8) ≤ 4) ⟨0, 0, fun _ _ => ' '⟩
    (.const ⟨0, 0⟩) 0 [⟨0, chr '9'⟩, ⟨0, chr '2'⟩, ⟨0, charCarriageReturn⟩]
  obtain ⟨item, returns, within⟩ := menuAndCalls.2 4 1 [⟨0, chr '9'⟩, ⟨0, chr '2'⟩]
    ⟨0, charCarriageReturn⟩ [] (by decide) (by decide) (by decide) (.inl (by decide))
  exact ⟨menuAndCalls.1.mpr (by decide), item, returns, within.mpr (by decide)⟩

/-- '9' and Enter take the menu to item 9. -/
theorem nine_leaves_menu :
    ¬ ∀ tr w' out, Run console.env (keyed (.const ⟨0, 0⟩) 0 [⟨0, chr '9'⟩, ⟨0, charCarriageReturn⟩])
      (menu hexBoard 1) tr w' out → Faithful ⟨0, 0, fun _ _ => ' '⟩ (drawings tr) := by
  rw [menu_faithful_iff _ _ _ _ reader 1]
  intro onMenu
  exact absurd (onMenu 9 (by decide)) (by decide)

end ZeroProcHot.MsrEdit
