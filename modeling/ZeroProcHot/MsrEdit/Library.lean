import ZeroProcHot.MsrEdit.Keys
import ZeroProcHot.MsrEdit.Marks

/-!
# The key reader of `libMSREdit.c`

The menu and this reader keep to one protocol (`menu_protocol`): 254 and 255 are what Esc and Enter
make of the reader and nothing else is, and every other result is an item. By itself the reader
forgets a rejected digit unless an arrow key follows (`hexBoard_answer_iff`).
-/

namespace ZeroProcHot.MsrEdit.Lib

open Interact Efi

/-- The keys that take the Enter branch or the Esc branch. -/
def ends (key : InputKey) : Prop :=
  hexDigit key.unicodeChar = none ∧ key.scanCode ≠ scanUp ∧ key.scanCode ≠ scanDown ∧
    (key.unicodeChar = charCarriageReturn ∨ key.scanCode = scanEsc)

instance (key : InputKey) : Decidable (ends key) :=
  inferInstanceAs (Decidable (_ ∧ _ ∧ _ ∧ _))

/-- The keys that take an arrow branch. -/
def moves (key : InputKey) : Prop :=
  hexDigit key.unicodeChar = none ∧ (key.scanCode = scanUp ∨ key.scanCode = scanDown)

variable {max : UInt64} {current : UInt8}

/-- What a key that ends the reader makes of `keyint`. -/
theorem press_ends (keyint : UInt8) {key : InputKey} (h : ends key) :
    press current max keyint key = 254 ∨ press current max keyint key = 255 := by
  obtain ⟨digit, up, down, leaves⟩ := h
  unfold press
  rw [digit]
  dsimp only
  rw [if_neg up, if_neg down]
  split
  · exact .inr rfl
  · next enter =>
    rw [if_pos (leaves.resolve_left enter)]
    exact .inl rfl

/-- What any other key makes of it: a digit above `max`, or a value up to `max`. -/
theorem press_other (hmax : max < 254) (hc : current.toUInt64 ≤ max) (keyint : UInt8)
    {key : InputKey} (h : ¬ ends key) (within : ¬ exceeds max key) :
    (press current max keyint key).toUInt64 ≤ max := by
  unfold press
  cases hd : hexDigit key.unicodeChar with
  | some digit =>
    dsimp only
    by_contra above
    exact within ⟨digit, hd, UInt64.not_le.mp above⟩
  | none =>
    dsimp only
    split
    · exact stepUp_le hmax keyint
    · split
      · exact stepDown_le hmax keyint
      · next up down =>
        split
        · next enter => exact absurd ⟨hd, up, down, .inl enter⟩ h
        · split
          · next esc => exact absurd ⟨hd, up, down, .inr esc⟩ h
          · exact hc

/-- A value above `max` is no answer. -/
theorem turn_above {keyint : UInt8} (small : keyint < 254) (above : max < keyint.toUInt64) :
    turn max keyint = .inl keyint := if_pos ⟨small, above⟩

/-- A value up to `max` is one. -/
theorem turn_within {keyint : UInt8} (within : keyint.toUInt64 ≤ max) :
    turn max keyint = .inr keyint := if_neg fun both => UInt64.not_lt.mpr within both.2

/-- So are the two sentinels. -/
theorem turn_sentinel {keyint : UInt8} (sentinel : keyint = 254 ∨ keyint = 255) :
    turn max keyint = .inr keyint := by
  refine if_neg fun both => ?_
  rcases sentinel with rfl | rfl
  · exact absurd both.1 (by decide)
  · exact absurd both.1 (by decide)

/-- One pass. -/
def pass (max : UInt64) (current keyint : UInt8) (key : InputKey) : UInt8 ⊕ UInt8 :=
  turn max (press current max keyint key)

/-- A digit above `max` stays, and the reader goes on. -/
theorem pass_exceeds {keyint digit : UInt8} {key : InputKey}
    (hd : hexDigit key.unicodeChar = some digit) (above : max < digit.toUInt64) :
    pass max current keyint key = .inl digit := by
  have small : digit < 254 := by
    rw [UInt8.lt_iff_toNat_lt]
    exact Nat.lt_of_le_of_lt (hexDigit_le hd) (by decide)
  have pressed : press current max keyint key = digit := by
    unfold press
    rw [hd]
  unfold pass
  rw [pressed, turn_above small above]

/-- Enter, Esc and the arrows across answer a sentinel. -/
theorem pass_ends {keyint : UInt8} {key : InputKey} (h : ends key) :
    ∃ item, pass max current keyint key = .inr item ∧ (item = 254 ∨ item = 255) :=
  ⟨_, turn_sentinel (press_ends keyint h), press_ends keyint h⟩

/-- Any other key answers a value up to `max`. -/
theorem pass_other (hmax : max < 254) (hc : current.toUInt64 ≤ max) {keyint : UInt8}
    {key : InputKey} (h : ¬ ends key) (within : ¬ exceeds max key) :
    ∃ item, pass max current keyint key = .inr item ∧ item.toUInt64 ≤ max :=
  ⟨_, turn_within (press_other hmax hc keyint h within), press_other hmax hc keyint h within⟩

/-! ## The menu with this reader -/

/-- The menu took the keys up to the first that ends it, and returned the last item it drew. -/
structure Left (current : UInt8) (keys : List InputKey) (r : Result UInt8 (List InputKey) UInt8)
    (item : UInt8) : Prop where
  taken : ∃ pre key, keys = pre ++ key :: r.world ∧ (∀ x ∈ pre, ¬ ends x) ∧ ends key
  returned : r.outcome = .returned item
  last : (current :: r.steps).getLast? = some item
  onMenu : item ≤ 4

/-- The menu's way through some keys. -/
structure Through (current : UInt8) (keys : List InputKey)
    (r : Result UInt8 (List InputKey) UInt8) : Prop where
  items : ∀ item ∈ r.steps, item ≤ 4
  waits : (∀ key ∈ keys, ¬ ends key) → r.outcome = .blocked
  leaves : (∃ key ∈ keys, ends key) → ∃ item, Left current keys r item

/-- A key that does not leave may come before. -/
theorem Left.later {current item : UInt8} {keys : List InputKey} {key : InputKey}
    {r : Result UInt8 (List InputKey) UInt8} (h : Left current keys r item) (stays : ¬ ends key) :
    Left current (key :: keys) r item := by
  obtain ⟨pre, last, cut, before, at'⟩ := h.taken
  refine ⟨⟨key :: pre, last, congrArg (key :: ·) cut, ?_, at'⟩, h.returned, h.last, h.onMenu⟩
  exact List.forall_mem_cons.mpr ⟨stays, before⟩

/-- The same before a session that goes on. -/
theorem Through.later {current : UInt8} {keys : List InputKey} {key : InputKey}
    {r : Result UInt8 (List InputKey) UInt8} (h : Through current keys r) (stays : ¬ ends key) :
    Through current (key :: keys) r := by
  refine ⟨h.items, fun none => h.waits fun x hx => none x (List.mem_cons_of_mem key hx), ?_⟩
  rintro ⟨x, hx, hends⟩
  rcases List.mem_cons.mp hx with rfl | hx
  · exact absurd hends stays
  · obtain ⟨item, left⟩ := h.leaves ⟨x, hx, hends⟩
    exact ⟨item, left.later stays⟩

/-- An item is drawn, and the menu goes on from it. -/
theorem Through.draw {current item : UInt8} {keys : List InputKey}
    {r : Result UInt8 (List InputKey) UInt8} (h : Through item keys r) (hi : item ≤ 4) :
    Through current keys ⟨item :: r.steps, r.world, r.outcome⟩ := by
  refine ⟨List.forall_mem_cons.mpr ⟨hi, h.items⟩, h.waits, fun some => ?_⟩
  obtain ⟨last, left⟩ := h.leaves some
  exact ⟨last, left.taken, left.returned, by rw [List.getLast?_cons_cons]; exact left.last,
    left.onMenu⟩

/-- **The menu stays on its items and leaves at the first key that ends it.** -/
theorem follow_through {current : UInt8} (h : current ≤ 4) (keyint : UInt8)
    (keys : List InputKey) : Through current keys (follow id (pass 4) current keyint keys) := by
  induction keys generalizing current keyint with
  | nil =>
    refine ⟨fun _ hx => absurd hx List.not_mem_nil, fun _ => rfl, ?_⟩
    rintro ⟨x, hx, _⟩
    exact absurd hx List.not_mem_nil
  | cons key keys ih =>
    rw [follow]
    by_cases hends : ends key
    · obtain ⟨item, passed, sentinel⟩ := @pass_ends 4 current keyint key hends
      rw [passed]
      dsimp only [onItem]
      rw [if_pos sentinel]
      refine ⟨fun _ hx => absurd hx List.not_mem_nil, fun none => ?_, fun _ => ?_⟩
      · exact absurd hends (none key List.mem_cons_self)
      · exact ⟨current, ⟨[], key, rfl, fun _ hx => absurd hx List.not_mem_nil, hends⟩, rfl, rfl, h⟩
    · by_cases above : exceeds 4 key
      · obtain ⟨digit, hd, above⟩ := above
        rw [pass_exceeds hd above]
        exact (ih h digit).later hends
      · obtain ⟨item, passed, within⟩ :=
          @pass_other 4 current (by decide) (item_le.mpr h) keyint key hends above
        have hi := item_le.mp within
        rw [passed]
        dsimp only [onItem]
        have small : item.toNat ≤ 4 := UInt8.le_iff_toNat_le.mp hi
        rw [if_neg (not_sentinel (by omega))]
        exact ((ih hi item).draw hi).later hends

/-- **The menu with the key reader of the library.** At every redraw of every run the display shows
`current` as selected, an item of the menu. The menu returns only when it has taken the first key
that ends it, and then the item the display shows; and it does return when such a key comes. -/
theorem menu_protocol {selected : UInt8} (h : selected ≤ 4) (d : Display)
    (junk : Stream' InputKey) (v : UInt64) (keys : List InputKey) :
    (∀ tr w' out, Run console.env (keyed junk v keys) (menu hexBoard selected) tr w' out →
      Faithful d (drawings tr)) ∧
    (∀ tr w' item,
      Run console.env (keyed junk v keys) (menu hexBoard selected) tr w' (some item) →
      (∃ pre key post, keys = pre ++ key :: post ∧ (∀ x ∈ pre, ¬ ends x) ∧ ends key ∧
        w' = leaving junk v keys post) ∧ Selects (d.drawn (drawings tr)) item) ∧
    ((∃ key ∈ keys, ends key) →
      ∃ tr w' item, Run console.env (keyed junk v keys) (menu hexBoard selected) tr w' (some item)) := by
  have reader : ∀ current, hexBoard current 4 = Prog.iter (keyIn (pass 4 current)) (id current) :=
    fun _ => rfl
  have through : Through selected keys (trail id (pass 4) selected keys) :=
    follow_through h selected keys
  refine ⟨?_, fun tr w' item run => ?_, fun some => ?_⟩
  · exact (menu_faithful_iff d junk v keys reader selected).mpr
      (List.forall_mem_cons.mpr ⟨h, through.items⟩)
  · obtain ⟨drawn, world, outcome⟩ := (menu_runs reader run).2 item rfl
    have some : ∃ key ∈ keys, ends key := by
      by_contra none
      have blocked := through.waits fun key hk hends => none ⟨key, hk, hends⟩
      rw [outcome] at blocked
      cases blocked
    obtain ⟨item', left⟩ := through.leaves some
    have same := outcome.symm.trans left.returned
    cases same
    obtain ⟨pre, key, cut, before, hends⟩ := left.taken
    refine ⟨⟨pre, key, _, cut, before, hends, world⟩, ?_⟩
    rw [drawn]
    exact selects_menuCalls d left.onMenu left.last
  · obtain ⟨item, left⟩ := through.leaves some
    obtain ⟨tr, run, _⟩ := menu_run keys reader selected junk v
    rw [left.returned] at run
    exact ⟨tr, _, item, run⟩

/-- A rejected '9', a '2' and Enter. -/
theorem menu_protocol_nineTwo :
    ∃ tr w' item, Run console.env
      (keyed (.const ⟨0, 0⟩) 0 [⟨0, chr '9'⟩, ⟨0, chr '2'⟩, ⟨0, charCarriageReturn⟩])
        (menu hexBoard 1) tr w' (some item) :=
  (menu_protocol (by decide) ⟨0, 0, fun _ _ => ' '⟩ (.const ⟨0, 0⟩) 0 _).2.2 (by decide)

/-! ## Rejected keys -/

/-- What the reader should return on a key that it does not reject: a function of the key and
`current`. -/
def answer (current : UInt8) (max : UInt64) (key : InputKey) : UInt8 :=
  match hexDigit key.unicodeChar with
  | some digit => digit
  | none =>
    if key.scanCode = scanUp then .ofNat ((current.toNat + max.toNat) % (max.toNat + 1))
    else if key.scanCode = scanDown then .ofNat ((current.toNat + 1) % (max.toNat + 1))
    else if key.unicodeChar = charCarriageReturn then 255
    else if key.scanCode = scanEsc then 254
    else current

/-- The value of `keyint` after some rejected keys. -/
def kept (keyint : UInt8) (rejected : List InputKey) : UInt8 :=
  rejected.foldl (fun keyint key => (hexDigit key.unicodeChar).getD keyint) keyint

/-- Rejected digits leave the last of them behind. -/
theorem reads_rejected {rejected : List InputKey} (hr : ∀ key ∈ rejected, exceeds max key)
    (keyint : UInt8) (keys : List InputKey) :
    reads (pass max current) keyint (rejected ++ keys) =
      reads (pass max current) (kept keyint rejected) keys := by
  induction rejected generalizing keyint with
  | nil => rfl
  | cons key rejected ih =>
    obtain ⟨⟨digit, hd, above⟩, hr⟩ := List.forall_mem_cons.mp hr
    rw [List.cons_append, reads, pass_exceeds hd above]
    dsimp only
    rw [ih hr digit]
    unfold kept
    rw [List.foldl_cons, hd]
    rfl

/-- `keyint` is the last rejected digit. -/
theorem kept_last {rejected : List InputKey} {last : InputKey} {digit : UInt8}
    (hl : rejected.getLast? = some last) (hd : hexDigit last.unicodeChar = some digit)
    (keyint : UInt8) : kept keyint rejected = digit := by
  obtain ⟨init, rfl⟩ := List.getLast?_eq_some_iff.mp hl
  unfold kept
  rw [List.foldl_append, List.foldl_cons, hd]
  rfl

/-- The reader skips rejected keys, and the next key is its last. -/
theorem hexBoard_returns (hmax : max < 254) (hc : current.toUInt64 ≤ max)
    {rejected : List InputKey} (hr : ∀ key ∈ rejected, exceeds max key) {key : InputKey}
    (hk : ¬ exceeds max key) (rest : List InputKey) (junk : Stream' InputKey) (v : UInt64) :
    Returns console.env (keyed junk v (rejected ++ key :: rest)) (hexBoard current max)
      (leaving junk v (rejected ++ key :: rest) rest)
      (press current max (kept current rejected) key) := by
  have last : pass max current (kept current rejected) key =
      .inr (press current max (kept current rejected) key) := by
    by_cases hends : ends key
    · exact turn_sentinel (press_ends _ hends)
    · exact turn_within (press_other hmax hc _ hends hk)
  have read : session ((rejected ++ key :: rest).length + 1) (hexBoard current max)
      (keyed junk v (rejected ++ key :: rest)) =
        settled junk v (rejected ++ key :: rest)
          (reads (pass max current) current (rejected ++ key :: rest)) :=
    session_reader (pass max current) current (Nat.lt_succ_self _)
  rw [reads_rejected hr, reads, last] at read
  exact returns_of_play read

theorem answer_toNat {t : Nat} (hmax : max < 254) (c : Nat) :
    (UInt8.ofNat ((c + t) % (max.toNat + 1))).toNat = (c + t) % (max.toNat + 1) := by
  have small : max.toNat < 254 := UInt64.lt_iff_toNat_lt.mp hmax
  have below := Nat.mod_lt (c + t) (by omega : 0 < max.toNat + 1)
  rw [UInt8.toNat_ofNat']
  exact Nat.mod_eq_of_lt (by omega)

/-- Only an arrow key tells `keyint` from `current`. -/
theorem press_answer_iff (hmax : max < 254) (hc : current.toUInt64 ≤ max) (keyint : UInt8)
    (key : InputKey) :
    press current max keyint key = answer current max key ↔
      (moves key → keyint.toNat % (max.toNat + 1) = current.toNat) := by
  have hc' : current.toNat ≤ max.toNat := toNat_le hc
  unfold press answer
  cases hd : hexDigit key.unicodeChar with
  | some digit => exact iff_of_true rfl fun arrow => by rw [arrow.1] at hd; cases hd
  | none =>
    dsimp only
    by_cases up : key.scanCode = scanUp
    · rw [if_pos up, if_pos up, ← UInt8.toNat_inj, stepUp_toNat (le_byte hmax), answer_toNat hmax,
        shift_eq_iff hc', forall_prop_of_true ⟨hd, .inl up⟩]
    · by_cases down : key.scanCode = scanDown
      · rw [if_neg up, if_neg up, if_pos down, if_pos down, ← UInt8.toNat_inj,
          stepDown_toNat (le_byte hmax), answer_toNat hmax, shift_eq_iff hc',
          forall_prop_of_true ⟨hd, .inr down⟩]
      · rw [if_neg up, if_neg up, if_neg down, if_neg down]
        exact iff_of_true rfl fun arrow => absurd arrow.2 (not_or.mpr ⟨up, down⟩)

/-- **What the reader returns after rejected keys.** It skips them and returns on the next key, with
what that key should return exactly when it is no arrow, or there is no rejected key, or the last
rejected digit is `current` up to a multiple of `max + 1`. -/
theorem hexBoard_answer_iff (hmax : max < 254) (hc : current.toUInt64 ≤ max)
    {rejected : List InputKey} (hr : ∀ key ∈ rejected, exceeds max key) {key : InputKey}
    (hk : ¬ exceeds max key) (rest : List InputKey) (junk : Stream' InputKey) (v : UInt64) :
    (∃ item, Returns console.env (keyed junk v (rejected ++ key :: rest)) (hexBoard current max)
      (leaving junk v (rejected ++ key :: rest) rest) item) ∧
    (Returns console.env (keyed junk v (rejected ++ key :: rest)) (hexBoard current max)
        (leaving junk v (rejected ++ key :: rest) rest) (answer current max key) ↔
      (moves key → ∀ last digit, rejected.getLast? = some last →
        hexDigit last.unicodeChar = some digit →
        digit.toNat % (max.toNat + 1) = current.toNat)) := by
  have hc' : current.toNat ≤ max.toNat := toNat_le hc
  have does := hexBoard_returns hmax hc hr hk rest junk v
  have own : Returns console.env (keyed junk v (rejected ++ key :: rest)) (hexBoard current max)
      (leaving junk v (rejected ++ key :: rest) rest) (answer current max key) ↔
        press current max (kept current rejected) key = answer current max key := by
    constructor
    · intro should
      exact (does.unique console.deterministic should).2
    · intro same
      rw [← same]
      exact does
  refine ⟨⟨_, does⟩, ?_⟩
  rw [own, press_answer_iff hmax hc]
  refine imp_congr_right fun _ => ⟨fun same last digit hl hd => ?_, fun each => ?_⟩
  · rw [kept_last hl hd] at same
    exact same
  · cases hl : rejected.getLast? with
    | none =>
      rw [List.getLast?_eq_none_iff.mp hl]
      exact Nat.mod_eq_of_lt (Nat.lt_succ_of_le hc')
    | some last =>
      obtain ⟨digit, hd, _⟩ := hr last (List.mem_of_getLast? hl)
      rw [kept_last hl hd]
      exact each last digit hl hd

/-- A rejected '6' is 1 up to a multiple of 5: Down goes from 1 to 2 all the same. -/
theorem hexBoard_answer_six :
    Returns console.env (keyed (.const ⟨0, 0⟩) 0 [⟨0, chr '6'⟩, ⟨scanDown, 0⟩]) (hexBoard 1 4)
      (leaving (.const ⟨0, 0⟩) 0 [⟨0, chr '6'⟩, ⟨scanDown, 0⟩] [])
      (answer 1 4 ⟨scanDown, 0⟩) := by
  have six : exceeds 4 ⟨0, chr '6'⟩ := by decide
  refine (hexBoard_answer_iff (by decide) (by decide) (List.forall_mem_singleton.mpr six)
    (by decide) [] (.const ⟨0, 0⟩) 0).2.mpr fun _ last digit hl hd => ?_
  cases hl
  have value : digit = 6 := Option.some.inj (hd.symm.trans (by decide))
  rw [value]
  decide

/-- After a rejected '9', Up goes from 1 to 3, and not to 0. -/
theorem nine_leaves_trace :
    Returns console.env (keyed (.const ⟨0, 0⟩) 0 [⟨0, chr '9'⟩, ⟨scanUp, 0⟩]) (hexBoard 1 4)
      (leaving (.const ⟨0, 0⟩) 0 [⟨0, chr '9'⟩, ⟨scanUp, 0⟩] []) 3 ∧
    ¬ Returns console.env (keyed (.const ⟨0, 0⟩) 0 [⟨0, chr '9'⟩, ⟨scanUp, 0⟩]) (hexBoard 1 4)
      (leaving (.const ⟨0, 0⟩) 0 [⟨0, chr '9'⟩, ⟨scanUp, 0⟩] []) (answer 1 4 ⟨scanUp, 0⟩) := by
  have nine : exceeds 4 ⟨0, chr '9'⟩ := by decide
  have does : Returns console.env (keyed (.const ⟨0, 0⟩) 0 [⟨0, chr '9'⟩, ⟨scanUp, 0⟩])
      (hexBoard 1 4) (leaving (.const ⟨0, 0⟩) 0 [⟨0, chr '9'⟩, ⟨scanUp, 0⟩] []) 3 :=
    hexBoard_returns (by decide) (by decide) (List.forall_mem_singleton.mpr nine) (by decide) []
      (.const ⟨0, 0⟩) 0
  exact ⟨does, fun should => absurd (does.unique console.deterministic should).2 (by decide)⟩

end ZeroProcHot.MsrEdit.Lib
