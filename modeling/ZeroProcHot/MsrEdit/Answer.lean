import Mathlib.Data.Int.ModEq
import Mathlib.Tactic.Ring
import ZeroProcHot.MsrEdit.Selection

/-!
# What the key reader of `MSREdit.c` returns

The reader folds all the keys it takes into one value, but only the last key that is no arrow counts,
and the arrows after it: a digit sets the value, a key that it does not know sets it back, and the
arrows move it in a circle of `max + 1` places. `hexBoard_value` is the law of the result.
-/

namespace ZeroProcHot.MsrEdit

open Interact Efi

/-- The keys that end the reader. -/
def terminates (key : InputKey) : Prop := accepts key ∨ escapes key

instance (key : InputKey) : Decidable (terminates key) := inferInstanceAs (Decidable (_ ∨ _))

/-- The keys that take the `SCAN_UP` branch. -/
def isUp (key : InputKey) : Prop := hexDigit key.unicodeChar = none ∧ key.scanCode = scanUp

instance (key : InputKey) : Decidable (isUp key) := inferInstanceAs (Decidable (_ ∧ _))

/-- The keys that take the `SCAN_DOWN` branch. -/
def isDown (key : InputKey) : Prop := hexDigit key.unicodeChar = none ∧ key.scanCode = scanDown

instance (key : InputKey) : Decidable (isDown key) := inferInstanceAs (Decidable (_ ∧ _))

/-- The keys of these two branches. -/
def isArrow (key : InputKey) : Prop := isUp key ∨ isDown key

instance (key : InputKey) : Decidable (isArrow key) := inferInstanceAs (Decidable (_ ∨ _))

/-- The value that the last key other than an arrow sets: its digit, or `current` when it is no digit
or when there is no such key. -/
def base (current : UInt8) (keys : List InputKey) : UInt8 :=
  match keys.reverse.find? fun key => ¬ isArrow key with
  | some key => (hexDigit key.unicodeChar).getD current
  | none => current

/-- The arrows after that key, the last one first. -/
def arrows (keys : List InputKey) : List InputKey :=
  keys.reverse.takeWhile isArrow

/-- How often the value went down a place since it was last set. -/
def ups (keys : List InputKey) : Nat := (arrows keys).countP isUp

/-- How often the value went up a place since it was last set. -/
def downs (keys : List InputKey) : Nat := (arrows keys).countP isDown

/-- The value after some keys. -/
def value (current : UInt8) (max : UInt64) (keys : List InputKey) : Int :=
  if ups keys = 0 ∧ downs keys = 0 then (base current keys).toNat
  else ((base current keys).toNat + downs keys - ups keys) % (max.toNat + 1)

/-! ## One more key -/

section Concat

variable {current : UInt8} {keys : List InputKey} {key : InputKey}

/-- The scan codes of the two arrows differ. -/
theorem not_isDown (h : isUp key) : ¬ isDown key := fun down =>
  absurd (h.2.symm.trans down.2) (by decide)

/-- An arrow leaves what the value was set to. -/
theorem base_arrow (h : isArrow key) : base current (keys ++ [key]) = base current keys := by
  unfold base
  rw [List.reverse_concat, List.find?_cons_of_neg (by simpa using h)]

/-- Any other key sets the value, so it is the last such key from now on. -/
theorem base_reset (h : ¬ isArrow key) :
    base current (keys ++ [key]) = (hexDigit key.unicodeChar).getD current := by
  unfold base
  rw [List.reverse_concat, List.find?_cons_of_pos (by simpa using h)]

/-- An arrow is the first of the arrows counted backwards. -/
theorem arrows_arrow (h : isArrow key) : arrows (keys ++ [key]) = key :: arrows keys := by
  unfold arrows
  rw [List.reverse_concat, List.takeWhile_cons_of_pos (by simpa using h)]

/-- Any other key starts the count of the arrows anew. -/
theorem arrows_reset (h : ¬ isArrow key) : arrows (keys ++ [key]) = [] := by
  unfold arrows
  rw [List.reverse_concat, List.takeWhile_cons_of_neg (by simpa using h)]

/-- After one more Up the count of the ups is one higher, and the circle counts. -/
theorem value_up (h : isUp key) (max : UInt64) :
    value current max (keys ++ [key]) =
      ((base current keys).toNat + downs keys - (ups keys + 1)) % (max.toNat + 1) := by
  unfold value ups downs
  rw [base_arrow (.inl h), arrows_arrow (.inl h), List.countP_cons_of_pos (by simpa using h),
    List.countP_cons_of_neg (by simpa using not_isDown h), if_neg (by omega), Nat.cast_succ]

/-- After one more Down the count of the downs is one higher, and the circle counts. -/
theorem value_down (h : isDown key) (max : UInt64) :
    value current max (keys ++ [key]) =
      ((base current keys).toNat + (downs keys + 1) - ups keys) % (max.toNat + 1) := by
  have up : ¬ isUp key := fun up => not_isDown up h
  unfold value ups downs
  rw [base_arrow (.inr h), arrows_arrow (.inr h), List.countP_cons_of_neg (by simpa using up),
    List.countP_cons_of_pos (by simpa using h), if_neg (by omega), Nat.cast_succ]

/-- After a key that is no arrow the value is what the key sets, also above `max`. -/
theorem value_reset (h : ¬ isArrow key) (max : UInt64) :
    value current max (keys ++ [key]) = ((hexDigit key.unicodeChar).getD current).toNat := by
  unfold value ups downs
  rw [base_reset h, arrows_reset h]
  exact if_pos ⟨rfl, rfl⟩

/-- Up to multiples of `max + 1` the arrows have moved the value by their difference. -/
theorem value_modEq (current : UInt8) (max : UInt64) (keys : List InputKey) :
    value current max keys ≡ (base current keys).toNat + downs keys - ups keys
      [ZMOD max.toNat + 1] := by
  unfold value
  split
  · next none =>
    rw [none.1, none.2]
    simp only [Nat.cast_zero, add_zero, sub_zero]
    rfl
  · exact Int.mod_modEq _ _

end Concat

/-! ## The reader -/

section Reader

variable {max : UInt64} {b : Board} {key : InputKey}

/-- The board of the reader after an Up. -/
theorem press_up (h : isUp key) : press max b key = { b with keyint := stepUp max b.keyint } := by
  unfold press
  rw [h.1]
  exact if_pos h.2

/-- The board of the reader after a Down. -/
theorem press_down (h : isDown key) :
    press max b key = { b with keyint := stepDown max b.keyint } := by
  have up : key.scanCode ≠ scanUp := fun up => absurd (up.symm.trans h.2) (by decide)
  unfold press
  rw [h.1]
  exact (if_neg up).trans (if_pos h.2)

/-- Any other key that does not end the reader sets the value. -/
theorem press_reset (stays : ¬ terminates key) (h : ¬ isArrow key) :
    press max b key = { b with keyint := (hexDigit key.unicodeChar).getD b.current } := by
  obtain ⟨accept, escape⟩ := not_or.mp stays
  unfold press
  cases hd : hexDigit key.unicodeChar with
  | some digit => rfl
  | none =>
    have up : key.scanCode ≠ scanUp := fun up => h (.inl ⟨hd, up⟩)
    have down : key.scanCode ≠ scanDown := fun down => h (.inr ⟨hd, down⟩)
    have left : key.scanCode ≠ scanLeft := fun left => accept ⟨hd, up, down, .inl left⟩
    have right : key.scanCode ≠ scanRight := fun right =>
      accept ⟨hd, up, down, .inr (.inl right)⟩
    have enter : key.unicodeChar ≠ charCarriageReturn := fun enter =>
      accept ⟨hd, up, down, .inr (.inr enter)⟩
    have esc : key.scanCode ≠ scanEsc := fun esc => escape ⟨hd, esc, enter⟩
    dsimp only
    rw [if_neg up, if_neg down, if_neg left, if_neg right, if_neg enter, if_neg esc]
    rfl

/-- **The value of the reader after some keys.** -/
theorem value_law (hmax : max ≤ 255) (current : UInt8) {keys : List InputKey}
    (stay : ∀ x ∈ keys, ¬ terminates x) :
    ((keys.foldl (press max) (Board.start current)).keyint.toNat : Int) =
      value current max keys := by
  induction keys using List.reverseRecOn with
  | nil => rfl
  | append_singleton keys key ih =>
    obtain ⟨stayInit, stayLast⟩ := List.forall_mem_append.mp stay
    have stays := stayLast key List.mem_cons_self
    have before := ih stayInit
    have open' : ∀ x ∈ keys, ¬ accepts x ∧ ¬ escapes x := fun x hx => not_or.mp (stayInit x hx)
    obtain ⟨_, _, same⟩ := @reads_open max (Board.start current) rfl keys open' []
    have places := value_modEq current max keys
    rw [List.foldl_append, List.foldl_cons, List.foldl_nil]
    by_cases up : isUp key
    · rw [press_up up, value_up up, stepUp_toNat hmax, Int.natCast_mod, Nat.cast_add, before,
        Nat.cast_succ]
      have moved := places.add_right ((max.toNat : Int) + 1 - 1)
      have circle := Int.add_emod_right
        ((base current keys).toNat + downs keys - (ups keys + 1) : Int) (max.toNat + 1)
      rw [← circle]
      refine Eq.trans ?_ (moved.trans ?_)
      · rw [add_sub_cancel_right]
      · show _ % _ = _ % _
        congr 1
        ring
    · by_cases down : isDown key
      · rw [press_down down, value_down down, stepDown_toNat hmax, Int.natCast_mod, Nat.cast_succ,
          before, Nat.cast_succ]
        have moved := places.add_right 1
        refine Eq.trans moved ?_
        congr 1
        ring
      · rw [press_reset stays (not_or.mpr ⟨up, down⟩), value_reset (not_or.mpr ⟨up, down⟩), same]
        rfl

end Reader

/-- **The result of the reader.** It takes the keys up to the first that ends it, and no more. On a key
that takes the Esc branch it returns what it was called with, and on any other such key the value of
the keys before it. -/
theorem hexBoard_value {max : UInt64} (hmax : max ≤ 255) (current : UInt8) {keys : List InputKey}
    (stay : ∀ x ∈ keys, ¬ terminates x) {key : InputKey} (last : terminates key)
    (rest : List InputKey) (junk : Stream' InputKey) (v : UInt64) :
    ∃ item, Returns console.env (keyed junk v (keys ++ key :: rest)) (hexBoard current max)
        (leaving junk v (keys ++ key :: rest) rest) item ∧
      (∀ w' item', Returns console.env (keyed junk v (keys ++ key :: rest)) (hexBoard current max)
        w' item' → w' = leaving junk v (keys ++ key :: rest) rest ∧ item' = item) ∧
      (escapes key → item = current) ∧
      (accepts key → (item.toNat : Int) = value current max keys) := by
  have open' : ∀ x ∈ keys, ¬ accepts x ∧ ¬ escapes x := fun x hx => not_or.mp (stay x hx)
  obtain ⟨_, _, same⟩ := @reads_open max (Board.start current) rfl keys open' (key :: rest)
  suffices read : ∃ item, Returns console.env (keyed junk v (keys ++ key :: rest))
      (hexBoard current max) (leaving junk v (keys ++ key :: rest) rest) item ∧
        (escapes key → item = current) ∧
        (accepts key → (item.toNat : Int) = value current max keys) by
    obtain ⟨item, found, escaped, accepted⟩ := read
    exact ⟨item, found, fun _ _ other => other.unique console.deterministic found, escaped,
      accepted⟩
  rcases last with accept | escape
  · exact ⟨_, hexBoard_turn open' (turn_accepts accept) rest junk v,
      fun escape => absurd accept (escapes_not_accepts escape),
      fun _ => value_law hmax current stay⟩
  · exact ⟨_, hexBoard_turn open' (turn_escapes escape) rest junk v, fun _ => same,
      fun accept => absurd accept (escapes_not_accepts escape)⟩

/-- '9' and Up go from 1 to 3 in a circle of five places. -/
theorem hexBoard_value_nineUp :
    ∃ item, Returns console.env
        (keyed (.const ⟨0, 0⟩) 0 ([⟨0, chr '9'⟩, ⟨scanUp, 0⟩] ++ [⟨0, charCarriageReturn⟩]))
        (hexBoard 1 4)
        (leaving (.const ⟨0, 0⟩) 0 ([⟨0, chr '9'⟩, ⟨scanUp, 0⟩] ++ [⟨0, charCarriageReturn⟩]) [])
        item ∧ (item.toNat : Int) = 3 := by
  have last : accepts ⟨0, charCarriageReturn⟩ := by decide
  obtain ⟨item, found, _, _, law⟩ := hexBoard_value (by decide : (4 : UInt64) ≤ 255) 1
    (by decide : ∀ x ∈ [⟨0, chr '9'⟩, ⟨scanUp, 0⟩], ¬ terminates x) (.inl last) []
    (.const ⟨0, 0⟩) 0
  exact ⟨item, found, (law last).trans (by decide)⟩

end ZeroProcHot.MsrEdit
