import ZeroProcHot.Efi.Keyboard
import ZeroProcHot.MsrEdit.Library
import ZeroProcHot.MsrEdit.Selection

/-!
# The editor, from its banner to its last poll

The whole of `efi_main`, with the key reader it is linked with, as a machine that takes the items of
the keyboard one by one. `program_desk` is exact: every call that draws, in its order, on every
keyboard. Both `HexBoard` and `KeyTimeout` declare their key variable anew for every key they read, and
a poll of `KeyTimeout` that finds no key looks at whatever the variable happens to hold. So the machine
carries the contents of the variables to come.
-/

namespace ZeroProcHot.MsrEdit

open Interact Efi

/-- `efi_main` with the `HexBoard` it is linked with. -/
def program (hexBoard : UInt8 → UInt64 → C UInt8) : C Status := do
  tcOPrint head0
  tcOPrint crlf
  let selected ← menu hexBoard 1
  tcOPrint (charset selected.toNat)
  let _ ← keyTimeout 1000
  return .success

/-- The program of `MSREdit.c` is the one with its own key reader. -/
theorem program_hexBoard : program hexBoard = efiMain := rfl

/-- A key reader whose call from the menu is a loop of passes, one key a pass. -/
structure Reader (σ : Type) where
  start : UInt8 → σ
  pass : UInt8 → σ → InputKey → σ ⊕ UInt8
  board : UInt8 → UInt64 → C UInt8
  passes : ∀ current, board current 4 = Prog.iter (keyIn (pass current)) (start current)

/-- The reader of `MSREdit.c`. -/
def Reader.own : Reader Board := ⟨Board.start, MsrEdit.pass, hexBoard, reader⟩

/-- The reader of `libMSREdit.c`. -/
def Reader.library : Reader UInt8 := ⟨id, Lib.pass 4, Lib.hexBoard, fun _ => rfl⟩

variable {σ : Type}

/-- What the next item is for: the reader that `menu` called with `current`, or `KeyTimeout` with the
polls after the next one. `junk` is what the key variables to come hold. -/
inductive Desk (σ : Type) where
  | reading (current : UInt8) (s : σ) (junk : Stream' InputKey)
  | closing (left : Nat) (junk : Stream' InputKey)
  | off

namespace Desk

/-- The program has returned. -/
def isOff : Desk σ → Bool
  | .off => true
  | _ => false

end Desk

/-- The keys that end `KeyTimeout`. -/
def closes (key : InputKey) : Prop :=
  key.unicodeChar = charCarriageReturn ∨ key.scanCode = scanEsc

instance (key : InputKey) : Decidable (closes key) := inferInstanceAs (Decidable (_ ∨ _))

/-- What `menu` makes of the item its reader returns, and what it draws. -/
def deskItem (reader : Reader σ) (current item : UInt8) (junk : Stream' InputKey) :
    List (Call Point) × Desk σ :=
  if item = 254 ∨ item = 255 then ([.outputString (charset current.toNat)], .closing 999 junk)
  else (redraw item, .reading item (reader.start item) junk)

/-- A poll of `KeyTimeout`. -/
def closing (left : Nat) (junk : Stream' InputKey) (key : InputKey) : Desk σ :=
  if closes key then .off
  else
    match left with
    | 0 => .off
    | left + 1 => .closing left junk

/-- What an item does. -/
def Desk.feed (reader : Reader σ) : Desk σ → Option InputKey → List (Call Point) × Desk σ
  | .reading current s junk, some key =>
    match reader.pass current s key with
    | .inl s => ([], .reading current s junk.tail)
    | .inr item => deskItem reader current item junk.tail
  | .reading current s junk, none => ([], .reading current s junk)
  | .closing left junk, item => ([], MsrEdit.closing left junk.tail (item.getD junk.head))
  | .off, _ => ([], .off)

/-- The machine. -/
def desk (reader : Reader σ) : Machine (Desk σ) (Option InputKey) (Call Point) :=
  ⟨Desk.isOff, Desk.feed reader⟩

/-- What is drawn before the first item. -/
def openingCalls : List (Call Point) :=
  .outputString head0 :: .outputString crlf :: printMenuCalls ++ redraw 1

section Machine

variable {reader : Reader σ} {junk : Stream' InputKey} {n : Nat}

/-- A closing key ends the last poll. -/
theorem closing_ends {left : Nat} {key : InputKey} (h : closes key) :
    (closing left junk key : Desk σ) = .off := if_pos h

/-- So does the last of its rounds. -/
theorem closing_over {key : InputKey} : (closing 0 junk key : Desk σ) = .off := by
  unfold closing
  split <;> rfl

/-- Any other round goes on. -/
theorem closing_on {left : Nat} {key : InputKey} (h : ¬ closes key) :
    (closing (left + 1) junk key : Desk σ) = .closing left junk := if_neg h

/-- A pass that goes on. -/
theorem feed_inl {current : UInt8} {s s' : σ} {key : InputKey}
    (turn : reader.pass current s key = .inl s') :
    (desk reader).feed (.reading current s junk) (some key) =
      ([], .reading current s' junk.tail) := by
  simp only [desk, Desk.feed, turn]

/-- A pass that returns an item. -/
theorem feed_inr {current item : UInt8} {s : σ} {key : InputKey}
    (turn : reader.pass current s key = .inr item) :
    (desk reader).feed (.reading current s junk) (some key) =
      deskItem reader current item junk.tail := by
  simp only [desk, Desk.feed, turn]

theorem desk_idles (current : UInt8) (s : σ) (junk : Stream' InputKey) :
    Idles (desk reader) (.reading current s junk) := ⟨rfl, rfl⟩

/-- What the machine says of the items to come. -/
def expect (reader : Reader σ) (d : Desk σ) (w : Console) :
    Result (Call Point) Unit (List (Option InputKey)) :=
  ((desk reader).play d w.keys).mapWorld fun _ => ()

/-- What is seen of a session: what it draws and the items it has left. -/
def seenOf {α : Type} (r : Result (Call Point) Console α) :
    Result (Call Point) Unit (List (Option InputKey)) := r.report (fun _ => ()) fun _ w => w.keys

theorem expect_off (w : Console) : expect reader .off w = ⟨[], (), .returned w.keys⟩ := by
  unfold expect
  rw [Machine.play_stopped (by rfl)]
  rfl

theorem expect_nil {d : Desk σ} (on : d.isOff = false) {w : Console} (none : w.keys = []) :
    expect reader d w = ⟨[], (), .blocked⟩ := by
  unfold expect
  rw [none, Machine.play_nil on]
  rfl

/-- The item that the next read takes. -/
theorem expect_cons {d : Desk σ} (on : d.isOff = false) {w : Console} {item : Option InputKey}
    {items : List (Option InputKey)} (next : w.keys = item :: items) :
    expect reader d w =
      (expect reader (d.feed reader item).2 w.taken).prepend (d.feed reader item).1 := by
  have rest : w.taken.keys = items := by
    rw [Console.keys_taken, next]
    rfl
  unfold expect
  rw [next, Machine.play_cons on, rest, Result.mapWorld_prepend]
  rfl

/-! ## The program follows the machine -/

/-- A round of a reader waits, declares its key and reads it. -/
theorem session_keyIn {β : Type} (g : σ → InputKey → σ ⊕ β) (s : σ) (w : Console) :
    session n (keyIn g s) w = (session n waitForEvent w).andThen fun _ w =>
      (session n (readKeyStroke w.junk.head) w.declared).andThen fun key w =>
        ⟨[], w, .returned (g s key)⟩ := by
  have local' (w : Console) : session n keyLocal w = ⟨[], w.declared, .returned w.junk.head⟩ := rfl
  unfold keyIn
  rw [session_bind]
  congr 1
  funext _ w
  rw [session_seq (local' w), Result.andThen_nil, session_bind]
  rfl

/-- **A reader follows the machine**: each pass takes a key. -/
theorem reader_meets (current : UInt8) (s : σ) (w : Console) (enough : w.keys.length < n) :
    (session n (Prog.iter (keyIn (reader.pass current)) s) w).Meets (fun _ => ())
      (expect reader (.reading current s w.junk) w) fun item w' e =>
        Later w w' ∧ w'.keys.length < w.keys.length ∧
          e = (expect reader (deskItem reader current item w'.junk).2 w').prepend
            (deskItem reader current item w'.junk).1 := by
  have loop : session n (Prog.iter (keyIn (reader.pass current)) s) w =
      rounds (fun s w => session n (keyIn (reader.pass current) s) w) n s w := play_iter _ s w
  rw [loop]
  refine @Result.meets_rounds _ _ _ _ _ _ _ _ _ _
    (fun k s w' e => k = w'.keys.length ∧ Later w w' ∧
      e = expect reader (.reading current s w'.junk) w')
    ?_ w.keys.length n enough s w ⟨rfl, .refl, rfl⟩
  rintro _ s w₁ _ ⟨rfl, later, rfl⟩
  rw [session_keyIn]
  rcases @wait_cases Point _ _ _ _ n drawing rfl (@desk_idles σ reader current s w₁.junk) w₁ with
    ⟨stuck, blocked⟩ | ⟨w', key, waits, same, next, first, hj, _⟩
  · have waiting : session n waitForEvent w₁ = ⟨[], w₁, .blocked⟩ := stuck
    rw [waiting, Result.andThen_blocked, expect, blocked]
    rfl
  · have waited : session n waitForEvent w₁ = ⟨[], w', .returned ()⟩ := waits
    obtain ⟨w₂, hw₂⟩ : ∃ w₂, w₂ = w'.taken.declared := ⟨_, rfl⟩
    have declared : w'.declared.keys = some key :: w'.taken.keys := next
    have taken : session n (readKeyStroke w'.junk.head) w'.declared =
        ⟨[], w'.declared.taken, .returned key⟩ := play_take (fun _ => rfl) declared
    rw [Console.taken_declared, ← hw₂] at taken
    have junk : w₁.junk.tail = w₂.junk := by
      rw [hw₂, ← hj, ← w'.junk_taken]
      rfl
    have shorter : w₂.keys.length < w₁.keys.length := by
      have total := first.length_le
      rw [next, List.length_cons] at total
      rw [hw₂, Console.keys_declared]
      omega
    have after : Later w w₂ := by
      rw [hw₂]
      exact later.trans (first.trans (Later.taken.trans .declared))
    have passed : expect reader (.reading current s w₁.junk) w₁ =
        (expect reader ((desk reader).feed (.reading current s w₁.junk) (some key)).2 w₂).prepend
          ((desk reader).feed (.reading current s w₁.junk) (some key)).1 := by
      rw [hw₂]
      unfold expect
      rw [same]
      exact expect_cons rfl next
    rw [waited, Result.andThen_nil, taken, Result.andThen_nil, passed]
    cases turned : reader.pass current s key with
    | inl s' =>
      rw [feed_inl turned, junk]
      exact Result.meets_nil.mpr ⟨_, shorter, rfl, after, rfl⟩
    | inr item =>
      rw [feed_inr turned, junk]
      exact Result.meets_nil.mpr ⟨after, Nat.lt_of_lt_of_le shorter later.length_le, rfl⟩

/-- **The menu follows the machine**, from a redraw on. -/
theorem menu_meets (current : UInt8) (w : Console) (enough : w.keys.length < n) :
    (session n (Prog.iter (select reader.board) current) w).Meets (fun _ => ())
      ((expect reader (.reading current (reader.start current) w.junk) w).prepend (redraw current))
      fun selected w' e => Later w w' ∧
        e = (expect reader (.closing 999 w'.junk) w').prepend
          [.outputString (charset selected.toNat)] := by
  have loop : session n (Prog.iter (select reader.board) current) w =
      rounds (fun current w => session n (select reader.board current) w) n current w :=
    play_iter _ current w
  rw [loop]
  refine @Result.meets_rounds _ _ _ _ _ _ _ _ _ _
    (fun k current w' e => k = w'.keys.length ∧ Later w w' ∧
      e = (expect reader (.reading current (reader.start current) w'.junk) w').prepend
        (redraw current))
    ?_ w.keys.length n enough current w ⟨rfl, .refl, rfl⟩
  rintro _ current w₁ _ ⟨rfl, later, rfl⟩
  have fewer : w₁.keys.length < n := Nat.lt_of_le_of_lt later.length_le enough
  rw [session_select, reader.passes current]
  refine Result.meets_said ((reader_meets current (reader.start current) w₁ fewer).andThen ?_)
  rintro item w₂ _ ⟨first, shorter, rfl⟩
  unfold itemTurn deskItem
  by_cases leaves : item = 254 ∨ item = 255
  · rw [if_pos leaves, if_pos leaves]
    exact Result.meets_nil.mpr ⟨later.trans first, rfl⟩
  · rw [if_neg leaves, if_neg leaves]
    exact Result.meets_nil.mpr ⟨_, shorter, rfl, later.trans first, rfl⟩

/-- One poll of `KeyTimeout`. -/
theorem session_pollKey (left : Nat) (w : Console) :
    session n (pollKey (left + 1)) w =
      (session n (readKeyStroke w.junk.head) w.declared).andThen fun key w =>
        if closes key then ⟨[], w, .returned 1⟩ else session n (pollKey left) w := by
  have local' : session n keyLocal w = ⟨[], w.declared, .returned w.junk.head⟩ := rfl
  have stalled (w : Console) : session n (stall 10000) w = ⟨[], w, .returned ()⟩ := rfl
  rw [pollKey, session_seq local', Result.andThen_nil, session_bind]
  congr 1
  funext key w
  by_cases hk : closes key
  · rw [if_pos hk]
    exact congrArg (fun p => session n p w) (if_pos hk)
  · rw [if_neg hk]
    refine (congrArg (fun p => session n p w) (if_neg hk)).trans ?_
    exact (session_seq (stalled w)).trans (Result.andThen_nil _ _ _)

/-- One poll follows the machine when the polls after it do. -/
theorem poll_meets {left : Nat} {w : Console}
    {Q : UInt8 → Console → Result (Call Point) Unit (List (Option InputKey)) → Prop}
    (ended : ∀ w', Q 1 w' (expect reader .off w'))
    (on : ∀ key w', ¬ closes key → (session n (pollKey left) w').Meets (fun _ => ())
      (expect reader (closing left w'.junk key) w') Q) :
    (session n (pollKey (left + 1)) w).Meets (fun _ => ()) (expect reader (.closing left w.junk) w)
      Q := by
  rw [session_pollKey]
  cases next : w.keys with
  | nil =>
    have stuck : session n (readKeyStroke w.junk.head) w.declared = ⟨[], w.declared, .blocked⟩ :=
      play_take_blocked next
    rw [stuck, expect_nil rfl next]
    rfl
  | cons item items =>
    have taken : session n (readKeyStroke w.junk.head) w.declared =
        ⟨[], w.declared.taken, .returned (item.getD w.junk.head)⟩ := play_take (fun _ => rfl) next
    have junk : w.declared.taken.junk = w.junk.tail := w.declared.junk_taken
    have passed : expect reader (.closing left w.junk) w =
        expect reader (closing left w.declared.taken.junk (item.getD w.junk.head))
          w.declared.taken := by
      rw [junk, Console.taken_declared]
      exact expect_cons rfl next
    rw [taken, Result.andThen_nil, passed]
    by_cases hk : closes (item.getD w.junk.head)
    · rw [if_pos hk, closing_ends hk]
      exact Result.meets_nil.mpr (ended _)
    · rw [if_neg hk]
      exact on (item.getD w.junk.head) _ hk

/-- **`KeyTimeout` follows the machine**: by induction on the polls left. -/
theorem pollKey_meets (left : Nat) (w : Console) :
    (session n (pollKey (left + 1)) w).Meets (fun _ => ()) (expect reader (.closing left w.junk) w)
      fun _ w' e => e = expect reader .off w' := by
  induction left generalizing w with
  | zero =>
    refine poll_meets (fun _ => rfl) fun key w' _ => ?_
    rw [closing_over]
    exact Result.meets_nil.mpr rfl
  | succ left ih =>
    refine poll_meets (fun _ => rfl) fun key w' hk => ?_
    rw [closing_on hk]
    exact ih w'

/-- **The program is the desk.** With any key reader made of passes, on every keyboard and with more
rounds than there are items, the program draws what the machine draws after the opening, leaves the
same items, and returns or waits as the machine does. -/
theorem program_desk (w : Console) (enough : w.keys.length < n) :
    seenOf (session n (program reader.board) w) =
      (expect reader (.reading 1 (reader.start 1) w.junk) w).prepend openingCalls := by
  have printed (s : String) (w : Console) :
      session n (tcOPrint s) w = ⟨[.outputString s], w, .returned ()⟩ := rfl
  have opening : openingCalls =
      [.outputString head0] ++ ([.outputString crlf] ++ (printMenuCalls ++ redraw 1)) := rfl
  refine Result.Meets.report_eq ?_
  unfold program
  rw [opening, ← Result.prepend_prepend, ← Result.prepend_prepend, ← Result.prepend_prepend,
    session_bind, printed]
  refine Result.meets_said ?_
  rw [session_bind, printed]
  refine Result.meets_said ?_
  unfold menu
  rw [session_bind, session_bind, session_printMenu]
  refine (Result.meets_said (menu_meets 1 w enough)).andThen ?_
  rintro selected w₁ _ ⟨later, rfl⟩
  rw [session_bind, printed]
  refine Result.meets_said ?_
  have timeout : keyTimeout 1000 = pollKey (999 + 1) := rfl
  rw [timeout, session_bind]
  refine (pollKey_meets 999 w₁).andThen ?_
  rintro _ w₂ _ rfl
  rw [expect_off]
  exact Result.meets_nil.mpr rfl

/-- **Every run is a run of the desk**, with either reader: what a run draws is the beginning of what
the desk draws, and all of it when the program has returned; and some run draws all of it. -/
theorem program_runs (reader : Reader σ) (w : Console) :
    Follows console drawing (fun _ => ()) (fun _ w => w.keys) (program reader.board) w
      ((expect reader (.reading 1 (reader.start 1) w.junk) w).prepend openingCalls) :=
  follows_of_report fun _ enough => program_desk w enough

end Machine

/-! ## The last polls -/

section Closing

variable {reader : Reader σ} {junk : Stream' InputKey}

/-- What the polls of `KeyTimeout` look at: the key that was read, or what the key variable of the poll
happens to hold. -/
def contents : Stream' InputKey → List (Option InputKey) → List InputKey
  | _, [] => []
  | junk, item :: items => item.getD junk.head :: contents junk.tail items

/-- How many of some items `KeyTimeout` takes, if there are so many: up to the first poll that sees a
closing key, and no more than there are polls. -/
def polls (timeout : Nat) (junk : Stream' InputKey) (items : List (Option InputKey)) : Nat :=
  min ((contents junk items).findIdx (fun key => closes key) + 1) timeout

/-- What `KeyTimeout` leaves of some items. -/
def closed (timeout : Nat) (junk : Stream' InputKey) (items : List (Option InputKey)) :
    Outcome (List (Option InputKey)) :=
  if polls timeout junk items ≤ items.length then .returned (items.drop (polls timeout junk items))
  else .blocked

/-- With no item left the poll is blocked. -/
theorem closed_nil (left : Nat) : closed (left + 1) junk [] = .blocked := by
  unfold closed polls contents
  rw [if_neg]
  rw [List.findIdx_nil, List.length_nil]
  omega

/-- A closing item ends the poll and is taken. -/
theorem closed_ends {left : Nat} {item : Option InputKey} (items : List (Option InputKey))
    (h : closes (item.getD junk.head)) :
    closed (left + 1) junk (item :: items) = .returned items := by
  have one : polls (left + 1) junk (item :: items) = 1 := by
    unfold polls contents
    rw [List.findIdx_cons, decide_eq_true h, cond_true]
    omega
  unfold closed
  rw [one, if_pos (by rw [List.length_cons]; omega)]
  rfl

theorem closed_over (item : Option InputKey) (items : List (Option InputKey)) :
    closed 1 junk (item :: items) = .returned items := by
  have one : polls 1 junk (item :: items) = 1 := by
    unfold polls
    omega
  unfold closed
  rw [one, if_pos (by rw [List.length_cons]; omega)]
  rfl

theorem closed_on {left : Nat} {item : Option InputKey} (items : List (Option InputKey))
    (h : ¬ closes (item.getD junk.head)) :
    closed (left + 1 + 1) junk (item :: items) = closed (left + 1) junk.tail items := by
  have more : polls (left + 1 + 1) junk (item :: items) =
      polls (left + 1) junk.tail items + 1 := by
    unfold polls
    rw [contents, List.findIdx_cons, decide_eq_false h, cond_false]
    omega
  unfold closed
  rw [more, List.length_cons, List.drop_succ_cons]
  simp only [Nat.add_le_add_iff_right]

/-- By induction on the polls left. -/
theorem play_closing (left : Nat) (junk : Stream' InputKey) (items : List (Option InputKey)) :
    ((desk reader).play (.closing left junk) items).mapWorld (fun _ => ()) =
      ⟨[], (), closed (left + 1) junk items⟩ := by
  have fed (left : Nat) (junk : Stream' InputKey) (item : Option InputKey) :
      (desk reader).feed (.closing left junk) item =
        ([], closing left junk.tail (item.getD junk.head)) := rfl
  induction left generalizing junk items with
  | zero =>
    cases items with
    | nil =>
      rw [Machine.play_nil rfl, closed_nil]
      rfl
    | cons item items =>
      rw [Machine.play_cons rfl, fed, closing_over, Machine.play_stopped rfl, closed_over]
      rfl
  | succ left ih =>
    cases items with
    | nil =>
      rw [Machine.play_nil rfl, closed_nil]
      rfl
    | cons item items =>
      rw [Machine.play_cons rfl, fed]
      by_cases hk : closes (item.getD junk.head)
      · rw [closing_ends hk, Machine.play_stopped rfl, closed_ends items hk]
        rfl
      · rw [closing_on hk, Result.prepend_nil, ih, closed_on items hk]

end Closing

/-! ## With the key reader of the library -/

/-- How many keys are among some items. -/
def keyCount (items : List (Option InputKey)) : Nat := items.countP Option.isSome

theorem keyCount_none (items : List (Option InputKey)) : keyCount (none :: items) = keyCount items :=
  List.countP_cons_of_neg nofun

/-- An item that is a key counts. -/
theorem keyCount_some (key : InputKey) (items : List (Option InputKey)) :
    keyCount (some key :: items) = keyCount items + 1 := List.countP_cons_of_pos rfl

/-- Up to the first key that ends the menu: by induction on the items before it. -/
theorem play_until_ends {key : InputKey} {current : UInt8} (h : current ≤ 4) (keyint : UInt8)
    (junk : Stream' InputKey) {pre post : List (Option InputKey)}
    (before : ∀ item ∈ pre, ∀ k ∈ item, ¬ Lib.ends k) (last : Lib.ends key) :
    ∃ items item, item ≤ 4 ∧ (current :: items).getLast? = some item ∧
      (desk .library).play (.reading current keyint junk) (pre ++ some key :: post) =
        ((desk .library).play (.closing 999 (junk.drop (keyCount pre + 1))) post).prepend
          (items.flatMap redraw ++ [.outputString (charset item.toNat)]) := by
  induction pre generalizing current keyint junk with
  | nil =>
    obtain ⟨item, passed, sentinel⟩ := @Lib.pass_ends 4 current keyint key last
    have fed : (desk .library).feed (.reading current keyint junk) (some key) =
        ([.outputString (charset current.toNat)], .closing 999 junk.tail) :=
      (feed_inr passed).trans (if_pos sentinel)
    refine ⟨[], current, h, rfl, ?_⟩
    rw [List.nil_append, Machine.play_cons rfl, fed]
    rfl
  | cons item pre ih =>
    obtain ⟨first, rest⟩ := List.forall_mem_cons.mp before
    rw [List.cons_append]
    cases item with
    | none =>
      rw [Machine.play_idle rfl rfl, keyCount_none]
      exact ih h keyint junk rest
    | some k =>
      have stays := first k rfl
      rw [keyCount_some, ← Stream'.drop_tail']
      by_cases above : exceeds 4 k
      · obtain ⟨digit, hd, above⟩ := above
        have fed : (desk .library).feed (.reading current keyint junk) (some k) =
            ([], .reading current digit junk.tail) :=
          feed_inl (@Lib.pass_exceeds 4 current keyint digit k hd above)
        rw [Machine.play_cons rfl, fed, Result.prepend_nil]
        exact ih h digit junk.tail rest
      · obtain ⟨item, passed, within⟩ :=
          @Lib.pass_other 4 current (by decide) (item_le.mpr h) keyint k stays above
        have hi := item_le.mp within
        have small : item.toNat ≤ 4 := UInt8.le_iff_toNat_le.mp hi
        have fed : (desk .library).feed (.reading current keyint junk) (some k) =
            (redraw item, .reading item item junk.tail) :=
          (feed_inr passed).trans (if_neg (not_sentinel (by omega)))
        obtain ⟨items, shown, onMenu, ends, plays⟩ := ih hi item junk.tail rest
        refine ⟨item :: items, shown, onMenu, ?_, ?_⟩
        · rw [List.getLast?_cons_cons]
          exact ends
        · rw [Machine.play_cons rfl, fed, plays, Result.prepend_prepend, List.flatMap_cons,
            List.append_assoc]

/-- **The whole program with the key reader of the library.** When a key comes that ends the menu, the
program has drawn the menu with one row marked, prints the number of that row and nothing after it,
and then takes the items up to the first poll that sees a closing key, a thousand at most. Each key
before had a key variable of its own, so the polls begin with the contents after theirs. -/
theorem program_prints {n : Nat} {w : Console} {pre post : List (Option InputKey)} {key : InputKey}
    (keys : w.keys = pre ++ some key :: post) (before : ∀ item ∈ pre, ∀ k ∈ item, ¬ Lib.ends k)
    (last : Lib.ends key) (enough : w.keys.length < n) :
    ∃ cs item, seenOf (session n (program Lib.hexBoard) w) =
        ⟨cs ++ [.outputString (String.singleton (number item.toNat))], (),
          closed 1000 (w.junk.drop (keyCount pre + 1)) post⟩ ∧
      ∀ d : Display, Selects (d.drawn cs) item := by
  obtain ⟨items, item, onMenu, ends, plays⟩ :=
    @play_until_ends key 1 (by decide) 1 w.junk pre post before last
  have small : item.toNat ≤ 4 := UInt8.le_iff_toNat_le.mp onMenu
  refine ⟨.outputString head0 :: .outputString crlf :: menuCalls 1 ⟨items, [], .blocked⟩, item, ?_, ?_⟩
  · show seenOf (session n (program Reader.library.board) w) = _
    rw [program_desk w enough, ← charset_number item.toNat (by omega)]
    unfold expect
    rw [keys]
    show (((desk .library).play (.reading 1 1 w.junk) (pre ++ some key :: post)).mapWorld
      _).prepend _ = _
    rw [plays, Result.mapWorld_prepend, play_closing]
    simp only [Result.prepend, openingCalls, menuCalls, List.flatMap_cons, List.append_assoc,
      List.cons_append, List.append_nil]
  · intro d
    rw [Display.drawn_cons, Display.drawn_cons]
    exact selects_menuCalls (r := ⟨items, [], .blocked⟩) _ onMenu ends

/-- A digit above the last item, an item, Enter, and the Esc that ends the last polls. -/
def nineTwoEnter : Console :=
  ⟨[], [some ⟨0, chr '9'⟩, some ⟨0, chr '2'⟩, some ⟨0, charCarriageReturn⟩, none, some ⟨scanEsc, 0⟩],
    .const ⟨0, 0⟩, 0⟩

theorem program_prints_nineTwoEnter :
    ∃ cs item, seenOf (session 6 (program Lib.hexBoard) nineTwoEnter) =
        ⟨cs ++ [.outputString (String.singleton (number item.toNat))], (), .returned []⟩ ∧
      ∀ d : Display, Selects (d.drawn cs) item :=
  @program_prints 6 nineTwoEnter [some ⟨0, chr '9'⟩, some ⟨0, chr '2'⟩] [none, some ⟨scanEsc, 0⟩]
    ⟨0, charCarriageReturn⟩ rfl (by decide) (by decide) (by decide)

end ZeroProcHot.MsrEdit
