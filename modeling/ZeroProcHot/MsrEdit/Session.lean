import ZeroProcHot.Efi.Console
import ZeroProcHot.Efi.Display
import ZeroProcHot.MsrEdit.Program

/-!
# The menu on a stream of keys

With a key reader whose passes make `f` of a state and a key, `menu` is a machine that moves on each
key: `follow` is the list of the items it draws as selected, the keys it leaves and how it ends. It
is exact (`session_menu`), and it covers every run (`menu_runs`).
-/

namespace ZeroProcHot.MsrEdit

open Interact Efi

/-- The call, if it draws or marks a point. -/
def drawing (e : Event (firmware Point)) : Option (Call Point) :=
  match e.call with
  | .outputString s => some (.outputString s)
  | .reset extendedVerification => some (.reset extendedVerification)
  | .setCursorPosition column row => some (.setCursorPosition column row)
  | .reach p => some (.reach p)
  | _ => none

/-- What is seen of a program on the machine with a queue. Each loop has at most `n` rounds. -/
def session {α : Type} (n : Nat) (p : C α) (w : Console) : Result (Call Point) Console α :=
  play console n drawing p w

/-- The machine on which these keys come. -/
def keyed (junk : Stream' InputKey) (v : UInt64) (keys : List InputKey) : Console :=
  ⟨[], keys.map some, junk, v⟩

/-- The same machine when some of its keys are left: each pass of a reader that took a key declared a
key variable. -/
def leaving (junk : Stream' InputKey) (v : UInt64) (keys left : List InputKey) : Console :=
  keyed (junk.drop (keys.length - left.length)) v left

theorem leaving_self (junk : Stream' InputKey) (v : UInt64) (keys : List InputKey) :
    leaving junk v keys keys = keyed junk v keys := by
  unfold leaving
  rw [Nat.sub_self, Stream'.drop_zero]

theorem leaving_cons (junk : Stream' InputKey) (v : UInt64) (key : InputKey)
    {keys left : List InputKey} (fewer : left.length ≤ keys.length) :
    leaving junk v (key :: keys) left = leaving junk.tail v keys left := by
  unfold leaving
  rw [List.length_cons, Nat.succ_sub fewer, Stream'.drop_tail']

theorem leaving_leaving (junk : Stream' InputKey) (v : UInt64) {keys rest left : List InputKey}
    (fewer : rest.length ≤ keys.length) (fewest : left.length ≤ rest.length) :
    leaving (junk.drop (keys.length - rest.length)) v rest left = leaving junk v keys left := by
  have total : keys.length - rest.length + (rest.length - left.length) =
      keys.length - left.length := by omega
  unfold leaving
  rw [Stream'.drop_drop, total]

/-- A program that is seen to return, and the program after it. -/
theorem session_seq {α β : Type} {n : Nat} {p : C α} {k : α → C β} {w w' : Console}
    {cs : List (Call Point)} {a : α} (first : session n p w = ⟨cs, w', .returned a⟩) :
    session n (p >>= k) w =
      (⟨cs, w', .returned a⟩ : Result (Call Point) Console α).andThen fun a w => session n (k a) w :=
  play_seq first

theorem session_bind {α β : Type} {n : Nat} (p : C α) (k : α → C β) (w : Console) :
    session n (p >>= k) w = (session n p w).andThen fun a w => session n (k a) w :=
  play_bind p k w

/-! ## Key readers -/

section Readers

variable {σ β : Type} {n : Nat} {junk : Stream' InputKey} {v : UInt64}

theorem session_keyIn_nil (f : σ → InputKey → σ ⊕ β) (s : σ) :
    session n (keyIn f s) (keyed junk v []) = ⟨[], keyed junk v [], .blocked⟩ := rfl

theorem session_keyIn_cons (f : σ → InputKey → σ ⊕ β) (s : σ) (key : InputKey)
    (keys : List InputKey) :
    session n (keyIn f s) (keyed junk v (key :: keys)) =
      ⟨[], keyed junk.tail v keys, .returned (f s key)⟩ := rfl

/-- The result of the passes over some keys, and the keys they leave. -/
def reads (f : σ → InputKey → σ ⊕ β) : σ → List InputKey → Option (β × List InputKey)
  | _, [] => none
  | s, key :: keys =>
    match f s key with
    | .inl s => reads f s keys
    | .inr b => some (b, keys)

/-- A reader takes a key at least. -/
theorem reads_length {f : σ → InputKey → σ ⊕ β} {s : σ} {keys rest : List InputKey} {b : β}
    (h : reads f s keys = some (b, rest)) : rest.length < keys.length := by
  induction keys generalizing s with
  | nil => cases h
  | cons key keys ih =>
    unfold reads at h
    cases hf : f s key with
    | inl s' =>
      rw [hf] at h
      have shorter := ih h
      rw [List.length_cons]
      omega
    | inr b' =>
      rw [hf] at h
      cases h
      rw [List.length_cons]
      omega

/-- How a reader ends on some keys. -/
def settled (junk : Stream' InputKey) (v : UInt64) (keys : List InputKey) :
    Option (β × List InputKey) → Result (Call Point) Console β
  | some (b, left) => ⟨[], leaving junk v keys left, .returned b⟩
  | none => ⟨[], leaving junk v keys [], .blocked⟩

theorem settled_cons (key : InputKey) {keys : List InputKey} {taken : Option (β × List InputKey)}
    (fewer : ∀ b left, taken = some (b, left) → left.length ≤ keys.length) :
    settled junk v (key :: keys) taken = settled junk.tail v keys taken := by
  cases taken with
  | none =>
    unfold settled
    rw [leaving_cons junk v key (Nat.zero_le _)]
  | some taken =>
    obtain ⟨b, left⟩ := taken
    unfold settled
    exact congrArg (fun w => (⟨[], w, .returned b⟩ : Result (Call Point) Console β))
      (leaving_cons junk v key (fewer b left rfl))

/-- **A key reader on some keys.** -/
theorem session_reader (f : σ → InputKey → σ ⊕ β) (s : σ) {keys : List InputKey}
    (hn : keys.length < n) :
    session n (Prog.iter (keyIn f) s) (keyed junk v keys) = settled junk v keys (reads f s keys) := by
  suffices key : ∀ m, keys.length < m →
      rounds (fun s w => session n (keyIn f s) w) m s (keyed junk v keys) =
        settled junk v keys (reads f s keys) from
    (play_iter (keyIn f) s _).trans (key n hn)
  clear hn
  intro m hm
  induction keys generalizing s m junk with
  | nil =>
    obtain ⟨m, rfl⟩ : ∃ k, m = k + 1 := ⟨m - 1, by omega⟩
    rw [rounds, session_keyIn_nil, Result.andThen_blocked, ← leaving_self]
    rfl
  | cons key keys ih =>
    rw [List.length_cons] at hm
    obtain ⟨m, rfl⟩ : ∃ k, m = k + 1 := ⟨m - 1, by omega⟩
    rw [rounds, session_keyIn_cons, Result.andThen_nil]
    unfold reads
    cases f s key with
    | inl s' =>
      rw [settled_cons key fun b left taken => Nat.le_of_lt (reads_length taken)]
      exact ih s' m (by omega)
    | inr b =>
      have last : leaving junk v (key :: keys) keys = keyed junk.tail v keys := by
        rw [leaving_cons junk v key (Nat.le_refl _), leaving_self]
      exact congrArg (fun w => (⟨[], w, .returned b⟩ : Result (Call Point) Console β)) last.symm

end Readers

/-! ## The menu -/

/-- What prints row `i`. -/
def rowCalls (i : Nat) : List (Call Point) :=
  [.setCursorPosition 3 (9 + i), .outputString (charset (i % 5)), .outputString ". ",
    .outputString (menuLabel (i % 5)), .outputString crlf]

def printMenuCalls : List (Call Point) :=
  .setCursorPosition 0 8 :: .outputString "Menu:" :: (List.range' 1 5).flatMap rowCalls

def arrowCalls (selected : UInt8) (is : List Nat) : List (Call Point) :=
  is.flatMap fun i =>
    [.setCursorPosition 0 (9 + i),
      .outputString (slct (if i % 5 = selected.toNat then 1 else 0))]

/-- What a round of `menu` draws, from the label `SELECT` to the call of `HexBoard`. -/
def redraw (current : UInt8) : List (Call Point) :=
  .reach (.select current) :: arrowCalls current (List.range' 1 5) ++ [.reach (.hexBoard current 4)]

section Menu

variable {n : Nat} {w : Console}

theorem session_printMenu : session n printMenu w = ⟨printMenuCalls, w, .returned ()⟩ := rfl

theorem session_printArrows (selected : UInt8) :
    session n (printArrows selected) w =
      ⟨arrowCalls selected (List.range' 1 5), w, .returned ()⟩ :=
  play_forM fun _ _ => rfl

variable {σ : Type}

/-- What `menu` makes of an item, with what comes after it. -/
def onItem (current item : UInt8) (keys : List InputKey)
    (rest : Result UInt8 (List InputKey) UInt8) : Result UInt8 (List InputKey) UInt8 :=
  if item = 254 ∨ item = 255 then ⟨[], keys, .returned current⟩
  else ⟨item :: rest.steps, rest.world, rest.outcome⟩

/-- The items that `menu` draws as selected after the present one, from the middle of a reader that
it called with the present one: with the keys that are left and how `menu` ended. -/
def follow (start : UInt8 → σ) (f : UInt8 → σ → InputKey → σ ⊕ UInt8) :
    (current : UInt8) → σ → List InputKey → Result UInt8 (List InputKey) UInt8
  | _, _, [] => ⟨[], [], .blocked⟩
  | current, s, key :: keys =>
    match f current s key with
    | .inl s => follow start f current s keys
    | .inr item => onItem current item keys (follow start f item (start item) keys)

variable {start : UInt8 → σ} {f : UInt8 → σ → InputKey → σ ⊕ UInt8}

/-- To follow the keys is to follow the present reader first. -/
theorem follow_reads (current : UInt8) (s : σ) (keys : List InputKey) :
    follow start f current s keys =
      match reads (f current) s keys with
      | none => ⟨[], [], .blocked⟩
      | some (item, keys) => onItem current item keys (follow start f item (start item) keys) := by
  induction keys generalizing s with
  | nil => rfl
  | cons key keys ih =>
    rw [follow, reads]
    cases f current s key with
    | inl s' => exact ih s'
    | inr item => rfl

/-- The keys that are left are no more than there were. -/
theorem follow_length (current : UInt8) (s : σ) (keys : List InputKey) :
    (follow start f current s keys).world.length ≤ keys.length := by
  induction keys generalizing current s with
  | nil => exact Nat.le_refl _
  | cons key keys ih =>
    rw [follow, List.length_cons]
    cases f current s key with
    | inl s' => exact Nat.le_succ_of_le (ih current s')
    | inr item =>
      show (onItem current item keys _).world.length ≤ _
      unfold onItem
      split
      · exact Nat.le_succ keys.length
      · exact Nat.le_succ_of_le (ih item (start item))

/-- What is seen of the menu from a redraw on. -/
def shown (junk : Stream' InputKey) (v : UInt64) (keys : List InputKey) (current : UInt8)
    (r : Result UInt8 (List InputKey) UInt8) : Result (Call Point) Console UInt8 :=
  ⟨(current :: r.steps).flatMap redraw, leaving junk v keys r.world, r.outcome⟩

variable {board : UInt8 → UInt64 → C UInt8} {junk : Stream' InputKey} {v : UInt64}

/-- How a round of `menu` ends on an item. -/
def itemTurn (current item : UInt8) : UInt8 ⊕ UInt8 :=
  if item = 254 ∨ item = 255 then .inr current else .inl item

/-- A round of the menu draws, and then it reads an item. -/
theorem session_select (current : UInt8) (w : Console) :
    session n (select board current) w =
      (⟨redraw current, w, .returned ()⟩ : Result (Call Point) Console Unit).andThen
        fun _ w => (session n (board current 4) w).andThen
          fun item w => ⟨[], w, .returned (itemTurn current item)⟩ := by
  have last (item : UInt8) (w : Console) :
      session n (if item = 254 then return .inr current
        else if item = 255 then return .inr current else return .inl item : C (UInt8 ⊕ UInt8)) w =
      ⟨[], w, .returned (itemTurn current item)⟩ := by
    unfold itemTurn
    by_cases esc : item = 254
    · rw [if_pos esc, if_pos (.inl esc)]
      rfl
    · by_cases enter : item = 255
      · rw [if_neg esc, if_pos enter, if_pos (.inr enter)]
        rfl
      · rw [if_neg esc, if_neg enter, if_neg (not_or.mpr ⟨esc, enter⟩)]
        rfl
  have label : session n (reach (.select current)) w =
      ⟨[.reach (.select current)], w, .returned ()⟩ := rfl
  have called : session n (reach (.hexBoard current 4)) w =
      ⟨[.reach (.hexBoard current 4)], w, .returned ()⟩ := rfl
  unfold select
  rw [session_seq label, Result.andThen_returned, session_seq (session_printArrows current),
    Result.andThen_returned, session_seq called, Result.andThen_returned, session_bind]
  simp only [last, redraw, Result.andThen_returned, List.append_assoc, List.cons_append,
    List.nil_append]

/-- **The rounds of the menu on some keys.** -/
theorem rounds_select
    (reader : ∀ current, board current 4 = Prog.iter (keyIn (f current)) (start current)) {m : Nat}
    {current : UInt8} {keys : List InputKey} (hn : keys.length < n) (hm : keys.length < m) :
    rounds (fun current w => session n (select board current) w) m current (keyed junk v keys) =
      shown junk v keys current (follow start f current (start current) keys) := by
  induction m generalizing current keys junk with
  | zero => omega
  | succ m ih =>
    have read : session n (board current 4) (keyed junk v keys) =
        settled junk v keys (reads (f current) (start current) keys) := by
      rw [reader current]
      exact session_reader (f current) (start current) hn
    rw [rounds, session_select, Result.andThen_assoc, follow_reads, Result.andThen_returned,
      Result.andThen_assoc, read]
    cases hr : reads (f current) (start current) keys with
    | none =>
      simp only [settled, Result.andThen_blocked, shown, List.flatMap_cons, List.flatMap_nil]
    | some taken =>
      obtain ⟨item, rest⟩ := taken
      have shorter := reads_length hr
      simp only [settled, Result.andThen_nil, itemTurn, onItem]
      by_cases leaves : item = 254 ∨ item = 255
      · rw [if_pos leaves, if_pos leaves]
        simp only [shown, List.flatMap_cons, List.flatMap_nil]
      · rw [if_neg leaves, if_neg leaves]
        have later : rounds _ m item (leaving junk v keys rest) = _ :=
          @ih (junk.drop (keys.length - rest.length)) item rest (by omega) (by omega)
        have last := leaving_leaving junk v (Nat.le_of_lt shorter)
          (@follow_length _ start f item (start item) rest)
        simp only [later, last, shown, List.flatMap_cons]

/-- `menu` on some keys, from its start. -/
def trail (start : UInt8 → σ) (f : UInt8 → σ → InputKey → σ ⊕ UInt8) (selected : UInt8)
    (keys : List InputKey) : Result UInt8 (List InputKey) UInt8 :=
  follow start f selected (start selected) keys

/-- Everything the menu draws on a trail. -/
def menuCalls (selected : UInt8) (r : Result UInt8 (List InputKey) UInt8) : List (Call Point) :=
  printMenuCalls ++ (selected :: r.steps).flatMap redraw

/-- **The menu on some keys.** -/
theorem session_menu {keys : List InputKey} (hn : keys.length < n)
    (reader : ∀ current, board current 4 = Prog.iter (keyIn (f current)) (start current))
    (selected : UInt8) :
    session n (menu board selected) (keyed junk v keys) =
      ⟨menuCalls selected (trail start f selected keys),
        leaving junk v keys (trail start f selected keys).world,
        (trail start f selected keys).outcome⟩ := by
  have loop : session n (Prog.iter (select board) selected) (keyed junk v keys) =
      shown junk v keys selected (trail start f selected keys) :=
    (play_iter (select board) selected _).trans (rounds_select reader hn hn)
  unfold menu
  rw [session_seq session_printMenu, Result.andThen_returned, loop]
  rfl

/-! ## Every run of the menu -/

/-- What a run leaves on the display. -/
def drawings (tr : List (Step (firmware Point) Console)) : List (Call Point) :=
  (events tr).filterMap drawing

theorem session_of_run {α : Type} {p : C α} {w w' : Console}
    {tr : List (Step (firmware Point) Console)} {out : Option α}
    (run : Run console.env w p tr w' out) :
    ∃ n₀, ∀ n, n₀ ≤ n → drawings tr <+: (session n p w).steps ∧
      ∀ a, out = some a → session n p w = ⟨drawings tr, w', .returned a⟩ :=
  play_of_run run

/-- **Every run of the menu on some keys** draws a beginning of what the keys make the menu draw, and
all of it when it returns. -/
theorem menu_runs {keys : List InputKey}
    (reader : ∀ current, board current 4 = Prog.iter (keyIn (f current)) (start current))
    {selected : UInt8} {tr : List (Step (firmware Point) Console)} {w' : Console}
    {out : Option UInt8}
    (run : Run console.env (keyed junk v keys) (menu board selected) tr w' out) :
    drawings tr <+: menuCalls selected (trail start f selected keys) ∧
      ∀ item, out = some item →
        drawings tr = menuCalls selected (trail start f selected keys) ∧
          w' = leaving junk v keys (trail start f selected keys).world ∧
          (trail start f selected keys).outcome = .returned item := by
  obtain ⟨n₀, found⟩ := session_of_run run
  obtain ⟨begins, returns⟩ := found (max n₀ (keys.length + 1)) (by omega)
  rw [session_menu (by omega) reader selected] at begins returns
  refine ⟨begins, fun item returned => ?_⟩
  obtain ⟨drawn, world, outcome⟩ := Result.mk.inj (returns item returned)
  exact ⟨drawn.symm, world.symm, outcome⟩

/-- Some run draws all of it. -/
theorem menu_run (keys : List InputKey)
    (reader : ∀ current, board current 4 = Prog.iter (keyIn (f current)) (start current))
    (selected : UInt8) (junk : Stream' InputKey) (v : UInt64) :
    ∃ tr, Run console.env (keyed junk v keys) (menu board selected) tr
        (leaving junk v keys (trail start f selected keys).world)
        (trail start f selected keys).outcome.value? ∧
      drawings tr = menuCalls selected (trail start f selected keys) := by
  have all : session (keys.length + 1) (menu board selected) (keyed junk v keys) = _ :=
    session_menu (Nat.lt_succ_self keys.length) reader selected
  have run := exec_run console (keys.length + 1) (menu board selected) (keyed junk v keys)
  obtain ⟨drawn, world, outcome⟩ := Result.mk.inj all
  rw [world, outcome] at run
  exact ⟨_, run, drawn⟩

end Menu

end ZeroProcHot.MsrEdit
