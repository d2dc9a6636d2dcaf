import ZeroProcHot.Efi.Platform
import ZeroProcHot.Tmp.Session
import ZeroProcHot.Words.Numeral

/-!
# What the screen says

An observer of the output keeps what has been printed since the last `Reset`, and reads the rows of
digits on it as binary numbers. On a platform where only the program changes the register,
`efiMain_truthful` says of every event of every run that what is printed agrees with the register:
the three rows at the question, the value that the question is about, the three messages after it
and the digit above the menu.
-/

namespace ZeroProcHot.Tmp

open Interact Efi Words

/-! ## Reading the screen -/

/-- A digit of `strRow`. -/
def digit (d : Bool) : String := if d then "1" else "0"

/-- The digit that a string is, if it is one. -/
def digit? (s : String) : Option Bool :=
  if s = "0" then some false else if s = "1" then some true else none

/-- The digits that strings begin with. -/
def leadingDigits : List String → List Bool
  | [] => []
  | s :: rest =>
    match digit? s with
    | some d => d :: leadingDigits rest
    | none => []

/-- The number in the row with a head: 64 binary digits, the most significant first. -/
def number (head : String) (screen : List String) : Option Nat :=
  let ds := leadingDigits (screen.dropWhile fun s => s ≠ head).tail
  if ds.length = 64 then some (ofDigits ds) else none

/-- What an observer of the output remembers. -/
structure View where
  /-- What has been printed since the last `Reset`. -/
  screen : List String
  /-- Between the question and the next text, whether a write has happened since the question. -/
  asked : Option Bool
  /-- The number in the `RESULT:` row when the question was last asked. -/
  result : Option Nat

/-- What an event changes: a clearing, a text, or a write after the question. -/
def see (view : View) : Event (firmware Point) → View
  | ⟨.reset _, _⟩ => { view with screen := [] }
  | ⟨.outputString s, _⟩ =>
    if s = msgConfirm then ⟨view.screen ++ [s], some false, number "RESULT: " view.screen⟩
    else ⟨view.screen ++ [s], none, view.result⟩
  | ⟨.wrmsr _ _ _, _⟩ => { view with asked := view.asked.map fun _ => true }
  | _ => view

namespace Change

/-- The head of the row that shows what a change does. -/
def op : Change → String
  | .clear => "   AND: "
  | .set => "    OR: "

/-- The operation that the head of that row names. -/
def combine : Change → UInt64 → UInt64 → UInt64
  | .clear, v, term => v &&& term
  | .set, v, term => v ||| term

end Change

/-- **The rule for an event**, with the register and the view before it. The question is asked under a
row with the register, a row with an operand and a row with the result. A message of success is
printed after a write, with bit 0 as it says; the message of abortion is printed when the question
has led to no write, and nothing else is. The text after `BD_PROCHOT: ` is bit 0. What is written
is the result that the question was about. -/
def Truthful (v : UInt64) (view : View) : Event (firmware Point) → Prop
  | ⟨.outputString s, _⟩ =>
    (s = msgConfirm → ∃ (c : Change) (term : UInt64),
      number "\r\n 0x1FC: " view.screen = some v.toNat ∧
      number c.op view.screen = some term.toNat ∧
      number "RESULT: " view.screen = some (c.combine v term).toNat) ∧
    (s = msgEnabled → view.asked = some true ∧ bit 0 v = true) ∧
    (s = msgDisabled → view.asked = some true ∧ bit 0 v = false) ∧
    (s = msgAbort ↔ view.asked = some false) ∧
    (view.screen.getLast? = some "BD_PROCHOT: " → s = digit (bit 0 v))
  | ⟨.wrmsr _ low high, _⟩ => view.result = some (Halves.value ⟨low, high⟩).toNat
  | _ => True

/-! ## Rows -/

/-- What `strRow` prints. -/
def rowOf (head : String) (data : UInt64) : List String :=
  "\r\n" :: head :: (digits 64 data.toNat).map digit

/-- A digit is read back as it was printed. -/
theorem digit?_digit (d : Bool) : digit? (digit d) = some d := by
  cases d <;> decide

/-- Digits that lead are all read back. -/
theorem leadingDigits_map (ds : List Bool) (rest : List String) :
    leadingDigits (ds.map digit ++ rest) = ds ++ leadingDigits rest := by
  induction ds with
  | nil => rfl
  | cons d ds ih => simp only [List.map_cons, List.cons_append, leadingDigits, digit?_digit, ih]

/-- **A row reads back as the number that was printed**, whatever stands before it under another
head. -/
theorem number_rowOf {head : String} {before rest : List String} (data : UInt64)
    (absent : head ∉ before) (lineEnd : head ≠ "\r\n") (stop : leadingDigits rest = []) :
    number head (before ++ rowOf head data ++ rest) = some data.toNat := by
  have found : (before ++ rowOf head data ++ rest).dropWhile (fun s => s ≠ head) =
      head :: ((digits 64 data.toNat).map digit ++ rest) := by
    rw [List.append_assoc, List.dropWhile_append_of_pos]
    · simp only [rowOf, List.cons_append]
      rw [List.dropWhile_cons_of_pos (by simp [lineEnd.symm]),
        List.dropWhile_cons_of_neg (by simp)]
    · intro s hs
      simp only [decide_eq_true_eq]
      rintro rfl
      exact absent hs
  unfold number
  rw [found, List.tail_cons, leadingDigits_map, stop, List.append_nil]
  simp only [digits_length, ↓reduceIte, ofDigits_digits]
  rw [Nat.mod_eq_of_lt data.toNat_lt]

/-! ## The rules for a program that is watched -/

/-- Every event of every run from `w` is truthful, and every result satisfies `Q`. -/
def Shows {α : Type} (p : C α) (Q : α → UInt64 × View → Prop) (w : UInt64 × View) : Prop :=
  wp (observe keeping see) (fun w e _ => Truthful w.1 w.2 e) p Q w

section Rules

variable {α β : Type} {v : UInt64} {view : View}

@[simp] theorem shows_pure (a : α) (Q : α → UInt64 × View → Prop) (w : UInt64 × View) :
    Shows (Pure.pure a) Q w ↔ Q a w := Iff.rfl

@[simp] theorem shows_bind (p : C α) (f : α → C β) (Q : β → UInt64 × View → Prop)
    (w : UInt64 × View) : Shows (p >>= f) Q w ↔ Shows p (fun a => Shows (f a) Q) w :=
  wp_bind p f Q w

/-- The invariant rule for a loop over a list. -/
theorem shows_forM {ι : Type} {xs : List ι} {f : ι → C PUnit} {w : UInt64 × View}
    (J : UInt64 × View → Prop) (start : J w)
    (body : ∀ x ∈ xs, ∀ w, J w → Shows (f x) (fun _ => J) w) :
    Shows (forM xs f) (fun _ => J) w := wp_forM J start body

/-- The invariant rule for a loop without a bound. -/
theorem shows_iter {σ : Type} {body : σ → C (σ ⊕ β)} {s : σ} {Q : β → UInt64 × View → Prop}
    {w : UInt64 × View} (J : σ → UInt64 × View → Prop) (start : J s w)
    (round : ∀ s w, J s w → Shows (body s) (afterRound J Q) w) :
    Shows (Prog.iter body s) Q w := wp_iter J start round

theorem shows_mono {p : C α} {Q Q' : α → UInt64 × View → Prop} {w : UInt64 × View}
    (h : ∀ a w, Q a w → Q' a w) (hp : Shows p Q w) : Shows p Q' w := wp_mono h hp

/-- Every call but a write keeps the register. -/
theorem shows_call (c : Call Point) (silent : ∀ addr low high, c ≠ .wrmsr addr low high)
    (Q : Answer c → UInt64 × View → Prop) :
    Shows (invoke c) Q (v, view) ↔ ∀ r, keeping v ⟨c, r⟩ v →
      Truthful v view ⟨c, r⟩ ∧ Q r (v, see view ⟨c, r⟩) := by
  refine wp_perform_observed.trans ⟨fun h r step => h r v step, fun h r w step => ?_⟩
  obtain rfl := keeping_same step silent
  exact h r step

/-- A text has to be truthful, and is then on the screen. -/
theorem shows_outputString (s : String) (Q : Unit → UInt64 × View → Prop) :
    Shows (outputString s) Q (v, view) ↔
      Truthful v view ⟨.outputString s, ()⟩ ∧ Q () (v, see view ⟨.outputString s, ()⟩) := by
  refine (shows_call (.outputString s) (fun _ _ _ h => nomatch h) Q).trans ?_
  exact ⟨fun h => h () rfl, fun h _ _ => h⟩

theorem shows_reset (Q : Unit → UInt64 × View → Prop) :
    Shows (reset false) Q (v, view) ↔ Q () (v, { view with screen := [] }) := by
  refine (shows_call (.reset false) (fun _ _ _ h => nomatch h) Q).trans ?_
  exact ⟨fun h => (h () rfl).2, fun h _ _ => ⟨trivial, h⟩⟩

theorem shows_waitForEvent (Q : Unit → UInt64 × View → Prop) :
    Shows waitForEvent Q (v, view) ↔ Q () (v, view) := by
  refine (shows_call .waitForEvent (fun _ _ _ h => nomatch h) Q).trans ?_
  exact ⟨fun h => (h () rfl).2, fun h _ _ => ⟨trivial, h⟩⟩

theorem shows_stall (us : Nat) (Q : Unit → UInt64 × View → Prop) :
    Shows (stall us) Q (v, view) ↔ Q () (v, view) := by
  refine (shows_call (.stall us) (fun _ _ _ h => nomatch h) Q).trans ?_
  exact ⟨fun h => (h () rfl).2, fun h _ _ => ⟨trivial, h⟩⟩

theorem shows_reach (p : Point) (Q : Unit → UInt64 × View → Prop) :
    Shows (reach p) Q (v, view) ↔ Q () (v, view) := by
  refine (shows_call (.reach p) (fun _ _ _ h => nomatch h) Q).trans ?_
  exact ⟨fun h => (h () rfl).2, fun h _ _ => ⟨trivial, h⟩⟩

theorem shows_keyLocal (Q : InputKey → UInt64 × View → Prop) :
    Shows keyLocal Q (v, view) ↔ ∀ key, Q key (v, view) := by
  refine (shows_call .keyLocal (fun _ _ _ h => nomatch h) Q).trans ?_
  exact ⟨fun h key => (h key rfl).2, fun h key _ => ⟨trivial, h key⟩⟩

theorem shows_readKeyStroke (key : InputKey) (Q : InputKey → UInt64 × View → Prop) :
    Shows (readKeyStroke key) Q (v, view) ↔ ∀ r : ReadResult, Q (r.stored.getD key) (v, view) := by
  refine (shows_bind _ _ Q _).trans ((shows_call .readKeyStroke (fun _ _ _ h => nomatch h) _).trans ?_)
  exact ⟨fun h r => (h r rfl).2, fun h r _ => ⟨trivial, h r⟩⟩

/-- Reading register 0x1FC gives the register. -/
theorem shows_asmReadMsr64 (Q : UInt64 → UInt64 × View → Prop) :
    Shows (asmReadMsr64 powerCtl) Q (v, view) ↔ Q v (v, view) := by
  unfold asmReadMsr64
  have value : ((halves v).high.toUInt64 <<< 32) ||| (halves v).low.toUInt64 = v := value_halves v
  rw [shows_bind]
  refine (shows_call (.rdmsr powerCtl) (fun _ _ _ h => nomatch h) _).trans ?_
  constructor
  · intro h
    have last := (h (halves v) ⟨fun _ => rfl, rfl⟩).2
    rw [shows_pure, value] at last
    exact last
  · intro h r step
    obtain rfl : r = halves v := step.1 rfl
    refine ⟨trivial, ?_⟩
    rw [shows_pure, value]
    exact h

/-- Writing register 0x1FC, when the value is the one the question was about. -/
theorem shows_asmWriteMsr64 {val : UInt64} {Q : UInt64 → UInt64 × View → Prop}
    (promised : view.result = some val.toNat)
    (h : Q val (val, { view with asked := view.asked.map fun _ => true })) :
    Shows (asmWriteMsr64 powerCtl val) Q (v, view) := by
  have value : Halves.value ⟨val.toUInt32, (val >>> 32).toUInt32⟩ = val := value_halves val
  unfold asmWriteMsr64
  rw [shows_bind]
  refine wp_perform_observed.mpr fun _ w step => ?_
  obtain rfl : w = val := (step.trans (if_pos rfl)).trans value
  refine ⟨?_, h⟩
  show view.result = _
  rw [value]
  exact promised

end Rules

/-! ## Printing -/

/-- The question and the messages after it. -/
def messages : List String := [msgConfirm, msgEnabled, msgDisabled, msgAbort]

/-- The texts that the rule speaks of. -/
def special : List String := "BD_PROCHOT: " :: messages

/-- The heads of the rows. -/
def heads : List String := ["\r\n 0x1FC: ", "   AND: ", "    OR: ", "RESULT: "]

/-- The view outside a question: whatever is printed next is not bound to the register. -/
def Ready (view : View) : Prop :=
  view.asked = none ∧ view.screen.getLast? ≠ some "BD_PROCHOT: "

/-- A ready view with no row on the screen. -/
def Fresh (view : View) : Prop := Ready view ∧ ∀ head ∈ heads, head ∉ view.screen

/-- The view after some texts. -/
def View.add (view : View) (texts : List String) : View :=
  { view with screen := view.screen ++ texts }

variable {v : UInt64} {view : View}

/-- Between questions a text that is no message is added to the screen. -/
theorem see_print (asked : view.asked = none) {s : String} (plain : s ∉ messages) :
    see view ⟨.outputString s, ()⟩ = view.add [s] := by
  have other : s ≠ msgConfirm := fun h => plain (h ▸ List.mem_cons_self)
  refine (if_neg other).trans ?_
  rw [View.add, asked]

/-- Such a text is truthful unless it comes after the head of the flag and is not the flag. -/
theorem truthful_print (asked : view.asked = none) {s : String} (plain : s ∉ messages)
    (flag : view.screen.getLast? = some "BD_PROCHOT: " → s = digit (bit 0 v)) :
    Truthful v view ⟨.outputString s, ()⟩ := by
  simp only [messages, List.mem_cons, List.not_mem_nil, or_false, not_or] at plain
  obtain ⟨confirm, enabled, disabled, abort⟩ := plain
  refine ⟨fun h => absurd h confirm, fun h => absurd h enabled, fun h => absurd h disabled, ?_,
    flag⟩
  rw [asked]
  exact ⟨fun h => absurd h abort, fun h => nomatch h⟩

/-- A screen stays ready under texts that nothing depends on. -/
theorem ready_add (ready : Ready view) {texts : List String} (plain : ∀ s ∈ texts, s ∉ special) :
    Ready (view.add texts) := by
  refine ⟨ready.1, fun last => ?_⟩
  have last : (view.screen ++ texts).getLast? = some "BD_PROCHOT: " := last
  rw [List.getLast?_append] at last
  cases text : texts.getLast? with
  | none =>
    rw [text, Option.none_or] at last
    exact ready.2 last
  | some t =>
    rw [text, Option.some_or] at last
    exact plain t (List.mem_of_getLast? text) (Option.some.inj last ▸ by decide)

/-- Printing one of these texts. -/
theorem shows_print (ready : Ready view) {s : String} (plain : s ∉ special)
    {Q : Unit → UInt64 × View → Prop} (h : Q () (v, view.add [s])) :
    Shows (strOut s) Q (v, view) := by
  have plain := fun h => plain (List.mem_cons_of_mem _ h)
  refine (shows_outputString s Q).mpr
    ⟨truthful_print ready.1 plain fun last => absurd last ready.2, ?_⟩
  rw [see_print ready.1 plain]
  exact h

/-- Printing such texts one by one. -/
theorem shows_printAll {ι : Type} {f : ι → String} {xs : List ι} (ready : Ready view)
    (plain : ∀ x ∈ xs, f x ∉ special) {Q : Unit → UInt64 × View → Prop}
    (h : Q () (v, view.add (xs.map f))) : Shows (forM xs fun x => strOut (f x)) Q (v, view) := by
  induction xs generalizing view with
  | nil =>
    have same : view.add [] = view := by rw [View.add, List.append_nil]
    rw [List.map_nil, same] at h
    exact h
  | cons x xs ih =>
    have first := plain x List.mem_cons_self
    rw [List.forM_cons, shows_bind]
    refine shows_print ready first (ih ?_ (fun y hy => plain y (List.mem_cons_of_mem x hy)) ?_)
    · refine ready_add ready fun s hs => ?_
      rw [List.mem_singleton.mp hs]
      exact first
    · rw [View.add, View.add, List.append_assoc]
      exact h

theorem digit_plain (d : Bool) : digit d ∉ special := by
  cases d <;> decide

/-- No text of a row is one that something depends on. -/
theorem rowOf_plain {head : String} (plain : head ∉ special) (data : UInt64) :
    ∀ s ∈ rowOf head data, s ∉ special := by
  intro s hs
  rcases List.mem_cons.mp hs with rfl | hs
  · decide
  rcases List.mem_cons.mp hs with rfl | hs
  · exact plain
  · obtain ⟨d, _, rfl⟩ := List.mem_map.mp hs
    exact digit_plain d

/-- The digits that `strRow` prints, written as its loop computes them. -/
theorem digits_eq (data : UInt64) :
    (digits 64 data.toNat).map digit = (List.range 64).reverse.map fun i =>
      if data &&& (1 <<< UInt64.ofNat i) ≠ 0 then "1" else "0" := by
  unfold digits
  rw [List.map_map]
  refine List.map_congr_left fun i hi => ?_
  have hi : i < 64 := List.mem_range.mp (List.mem_reverse.mp hi)
  have same : data.toNat.testBit i = bit i data := rfl
  rw [Function.comp_apply, same]
  by_cases set : bit i data = true
  · rw [if_pos ((mask_ne_zero data hi).mpr set), set]
    rfl
  · rw [if_neg fun h => set ((mask_ne_zero data hi).mp h), Bool.eq_false_iff.mpr set]
    rfl

/-- `strRow` prints its row. -/
theorem shows_strRow (ready : Ready view) {head : String} (plain : head ∉ special) (data : UInt64)
    {Q : Unit → UInt64 × View → Prop} (h : Q () (v, view.add (rowOf head data))) :
    Shows (strRow head data) Q (v, view) := by
  have crlf : ∀ s ∈ ["\r\n"], s ∉ special := by decide
  have ready₁ := ready_add ready crlf
  have ready₂ := ready_add ready₁ fun s hs => (List.mem_singleton.mp hs) ▸ plain
  unfold strRow
  rw [shows_bind]
  refine shows_print ready (by decide) ?_
  rw [shows_bind]
  refine shows_print ready₁ plain (shows_printAll ready₂ ?_ ?_)
  · intro i _
    split
    · exact digit_plain true
    · exact digit_plain false
  · rw [← digits_eq]
    rw [View.add, View.add, View.add, List.append_assoc, List.append_assoc]
    exact h

/-! ## Prompts -/

/-- By induction on the polls left; a poll leaves the register as it is. -/
theorem shows_pollKey {prog : String} (plain : prog ∉ special) (left i : Nat) (key : InputKey)
    (ready : Ready view) :
    Shows (pollKey prog left i key) (fun _ w => w.1 = v ∧ Ready w.2) (v, view) := by
  induction left generalizing i key view with
  | zero => exact ⟨rfl, ready⟩
  | succ left ih =>
    have reading : ∀ view, Ready view → Shows
        (do
          let key ← readKeyStroke key
          if dismisses key then return 1
          else do
            stall defStall
            pollKey prog left (i + 1) key) (fun _ w => w.1 = v ∧ Ready w.2) (v, view) := by
      intro view ready
      rw [shows_bind, shows_readKeyStroke]
      intro r
      split
      · exact ⟨rfl, ready⟩
      · rw [shows_bind, shows_stall]
        exact ih (i + 1) _ ready
    rw [pollKey]
    split
    · rw [shows_bind]
      refine shows_print ready plain (reading _ (ready_add ready ?_))
      exact fun s hs => (List.mem_singleton.mp hs) ▸ plain
    · exact reading view ready

/-- `toMsg` with a message that may be printed. -/
theorem shows_toMsg {msg prog : String} {timeout : UInt64} (plain : prog ∉ special)
    (allowed : Truthful v view ⟨.outputString msg, ()⟩)
    (ready : Ready (see view ⟨.outputString msg, ()⟩)) :
    Shows (toMsg msg timeout prog) (fun _ w => w.1 = v ∧ Ready w.2) (v, view) := by
  unfold toMsg
  rw [shows_bind, shows_keyLocal]
  intro key
  rw [shows_bind]
  exact (shows_outputString msg _).mpr ⟨allowed, shows_pollKey plain _ 0 key ready⟩

/-! ## A change -/

/-- The operand of a change. -/
def Change.term : Change → UInt64
  | .clear => clearZero
  | .set => setZero

/-- The operand and the operator of a change, as the table shows them, make the change. -/
theorem Change.combine_term (c : Change) (v : UInt64) : c.combine v c.term = c.apply v := by
  cases c <;> rfl

/-- What is on the screen when a change asks its question. -/
def rows (c : Change) (v : UInt64) : List String :=
  rowOf "\r\n 0x1FC: " v ++ (rowOf c.op c.term ++ (["\r\n", tblHL] ++ rowOf "RESULT: " (c.apply v)))

theorem Change.op_plain (c : Change) : c.op ∉ special := by
  cases c <;> decide

/-- The row of the register as it is. -/
theorem shows_read0x1fc (ready : Ready view) {Q : UInt64 → UInt64 × View → Prop}
    (h : Q v (v, view.add (rowOf "\r\n 0x1FC: " v))) : Shows read0x1fc Q (v, view) := by
  unfold read0x1fc
  rw [shows_bind, shows_asmReadMsr64, shows_bind]
  exact shows_strRow ready (by decide) v h

/-- The rows of the operand and of the result. -/
theorem shows_table (ready : Ready view) {op : String} (plain : op ∉ special)
    {term result : UInt64} {Q : Unit → UInt64 × View → Prop}
    (h : Q () (v, view.add
      (rowOf op term ++ (["\r\n", tblHL] ++ rowOf "RESULT: " result)))) :
    Shows (table term op result) Q (v, view) := by
  have ready₁ := ready_add ready (rowOf_plain plain term)
  have ready₂ := ready_add ready₁ (by decide : ∀ s ∈ ["\r\n"], s ∉ special)
  have ready₃ := ready_add ready₂ (by decide : ∀ s ∈ [tblHL], s ∉ special)
  unfold table
  rw [shows_bind]
  refine shows_strRow ready plain term ?_
  rw [shows_bind]
  refine shows_print ready₁ (by decide) ?_
  rw [shows_bind]
  refine shows_print ready₂ (by decide) (shows_strRow ready₃ (by decide) result ?_)
  simp only [View.add, List.append_assoc] at h ⊢
  exact h

/-- A head stands in no other row. -/
theorem head_not_mem_rowOf {head other : String} (isHead : head ∈ heads) (ne : head ≠ other)
    (data : UInt64) : head ∉ rowOf other data := by
  intro h
  rcases List.mem_cons.mp h with rfl | h
  · revert isHead
    decide
  rcases List.mem_cons.mp h with rfl | h
  · exact ne rfl
  · obtain ⟨d, _, rfl⟩ := List.mem_map.mp h
    revert isHead
    cases d <;> decide

theorem leadingDigits_crlf (rest : List String) : leadingDigits ("\r\n" :: rest) = [] := rfl

/-- **The rows read back.** -/
theorem number_rows (c : Change) {before : List String} (absent : ∀ head ∈ heads, head ∉ before)
    (v : UInt64) :
    number "\r\n 0x1FC: " (before ++ rows c v) = some v.toNat ∧
    number c.op (before ++ rows c v) = some c.term.toNat ∧
    number "RESULT: " (before ++ rows c v) = some (c.apply v).toNat := by
  have op_head : c.op ∈ heads := by cases c <;> decide
  have op_ne : c.op ≠ "\r\n 0x1FC: " := by cases c <;> decide
  have result_ne : "RESULT: " ≠ c.op := by cases c <;> decide
  have absent₁ : ∀ head ∈ heads, head ≠ "\r\n 0x1FC: " →
      head ∉ before ++ rowOf "\r\n 0x1FC: " v := by
    intro head h ne
    rw [List.mem_append, not_or]
    exact ⟨absent head h, head_not_mem_rowOf h ne v⟩
  refine ⟨?_, ?_, ?_⟩
  · have read := number_rowOf v (absent "\r\n 0x1FC: " (by decide)) (by decide)
      (leadingDigits_crlf (c.op :: ((digits 64 c.term.toNat).map digit ++
        (["\r\n", tblHL] ++ rowOf "RESULT: " (c.apply v)))))
    rw [List.append_assoc] at read
    exact read
  · have read := number_rowOf c.term (absent₁ c.op op_head op_ne) (by cases c <;> decide)
      (leadingDigits_crlf (tblHL :: rowOf "RESULT: " (c.apply v)))
    rw [List.append_assoc, List.append_assoc] at read
    exact read
  · have absent₂ : "RESULT: " ∉
        before ++ rowOf "\r\n 0x1FC: " v ++ (rowOf c.op c.term ++ ["\r\n", tblHL]) := by
      intro h
      rcases List.mem_append.mp h with h | h
      · exact absent₁ "RESULT: " (by decide) (by decide) h
      rcases List.mem_append.mp h with h | h
      · exact head_not_mem_rowOf (by decide) result_ne c.term h
      · revert h
        decide
    have read := @number_rowOf _ _ [] (c.apply v) absent₂ (by decide) rfl
    simp only [List.append_assoc, List.append_nil] at read
    exact read

/-! ## The question -/

theorem rows_plain (c : Change) (v : UInt64) : ∀ s ∈ rows c v, s ∉ special := by
  intro s hs
  rcases List.mem_append.mp hs with h | hs
  · exact rowOf_plain (by decide) v s h
  rcases List.mem_append.mp hs with h | hs
  · exact rowOf_plain c.op_plain c.term s h
  rcases List.mem_append.mp hs with h | h
  · exact (by decide : ∀ s ∈ ["\r\n", tblHL], s ∉ special) s h
  · exact rowOf_plain (by decide) (c.apply v) s h

/-- Bit 0 after a change. -/
theorem bit_apply (c : Change) (v : UInt64) : bit 0 (c.apply v) = c.bit :=
  Change.bit_applyAll [c] v 0

/-- The message of success of a change. -/
def Change.done (c : Change) : String := if c.bit then msgEnabled else msgDisabled

/-- The message of success may be printed after the write. -/
theorem truthful_done (c : Change) (v : UInt64) (result : Option Nat) :
    Truthful (c.apply v) ⟨[], some true, result⟩ ⟨.outputString c.done, ()⟩ := by
  have now := bit_apply c v
  cases c with
  | clear =>
    refine ⟨fun h => absurd h (by decide), fun h => absurd h (by decide), fun _ => ⟨rfl, now⟩,
      ⟨fun h => absurd h (by decide), fun h => nomatch h⟩, fun h => nomatch h⟩
  | set =>
    refine ⟨fun h => absurd h (by decide), fun _ => ⟨rfl, now⟩, fun h => absurd h (by decide),
      ⟨fun h => absurd h (by decide), fun h => nomatch h⟩, fun h => nomatch h⟩

/-- The message of abortion may be printed when nothing has been written. -/
theorem truthful_abort (v : UInt64) (result : Option Nat) :
    Truthful v ⟨[], some false, result⟩ ⟨.outputString msgAbort, ()⟩ :=
  ⟨fun h => absurd h (by decide), fun h => absurd h (by decide), fun h => absurd h (by decide),
    ⟨fun _ => rfl, fun _ => rfl⟩, fun h => nomatch h⟩

/-- After one of the three messages alone on the screen, the view is ready. -/
theorem ready_message {msg : String} (known : msg ∈ [msgEnabled, msgDisabled, msgAbort])
    (asked : Option Bool) (result : Option Nat) :
    Ready (see ⟨[], asked, result⟩ ⟨.outputString msg, ()⟩) := by
  have other : msg ≠ msgConfirm ∧ msg ≠ "BD_PROCHOT: " := by
    revert msg
    decide
  have printed : see ⟨[], asked, result⟩ ⟨.outputString msg, ()⟩ = ⟨[msg], none, result⟩ :=
    if_neg other.1
  rw [printed]
  exact ⟨rfl, fun last => other.2 (Option.some.inj last)⟩

/-- The question is asked under the rows of its change, and the message after it says what has been
done. -/
theorem shows_confirmAndWrite (c : Change) (fresh : Fresh view) :
    Shows (confirmAndWrite (c.apply v) c.done) (fun _ w => Ready w.2)
      (v, view.add (rows c v)) := by
  obtain ⟨read, operand, result⟩ := number_rows c fresh.2 v
  have ready := ready_add fresh.1 (rows_plain c v)
  have asked : see (view.add (rows c v)) ⟨.outputString msgConfirm, ()⟩ =
      ⟨view.screen ++ rows c v ++ [msgConfirm], some false, some (c.apply v).toNat⟩ := by
    rw [← result]
    simp only [see, ↓reduceIte]
    rfl
  unfold confirmAndWrite strOut scrClear
  rw [shows_bind, shows_outputString]
  constructor
  · refine ⟨fun _ => ⟨c, c.term, read, operand, ?_⟩, fun h => absurd h (by decide),
      fun h => absurd h (by decide), ⟨fun h => absurd h (by decide), fun h => ?_⟩,
      fun last => absurd last ready.2⟩
    · rw [c.combine_term]
      exact result
    · rw [ready.1] at h
      cases h
  rw [asked, shows_bind, shows_waitForEvent, shows_bind, shows_keyLocal]
  intro key
  rw [shows_bind, shows_readKeyStroke]
  intro r
  rw [shows_bind, shows_reset]
  split
  · rw [shows_bind]
    refine shows_mono (fun _ _ h => h.2) (shows_toMsg (by decide) (truthful_abort v _) ?_)
    exact ready_message (by decide) _ _
  · rw [shows_bind]
    refine shows_asmWriteMsr64 rfl ?_
    rw [shows_bind]
    refine shows_mono (fun _ _ h => h.2) (shows_toMsg (by decide) (truthful_done c v _) ?_)
    exact ready_message (by cases c <;> decide) _ _

/-- A change from the read to the last message. -/
theorem shows_edit (c : Change) (fresh : Fresh view) :
    Shows
      (do
        let val ← read0x1fc
        table c.term c.op (c.apply val)
        confirmAndWrite (c.apply val) c.done)
      (fun _ w => Ready w.2) (v, view) := by
  have ready := ready_add fresh.1 (rowOf_plain (by decide : "\r\n 0x1FC: " ∉ special) v)
  rw [shows_bind]
  refine shows_read0x1fc fresh.1 ?_
  rw [shows_bind]
  refine shows_table ready c.op_plain ?_
  have shown := @shows_confirmAndWrite v view c fresh
  unfold rows at shown
  simp only [View.add, List.append_assoc] at shown ⊢
  exact shown

/-! ## The menu -/

/-- Printing a text that is neither special nor a head leaves a fresh view fresh. -/
theorem shows_fresh (fresh : Fresh view) {s : String} (plain : s ∉ special ++ heads) :
    Shows (strOut s) (fun _ w => Fresh w.2) (v, view) := by
  rw [List.mem_append, not_or] at plain
  refine shows_print fresh.1 plain.1 ⟨ready_add fresh.1 fun t ht => ?_, fun head hh h => ?_⟩
  · rw [List.mem_singleton.mp ht]
    exact plain.1
  · rcases List.mem_append.mp h with h | h
    · exact fresh.2 head hh h
    · rw [List.mem_singleton.mp h] at hh
      exact plain.2 hh

/-- The menu leaves no flag open on the screen. -/
theorem shows_menu (choice : UInt8) (fresh : Fresh view) :
    Shows (menu choice) (fun _ w => Fresh w.2) (v, view) := by
  have label : ∀ i < 4, menuLabel i ∉ special ++ heads := by decide
  unfold menu
  rw [shows_bind]
  refine shows_mono (fun _ w fresh => ?_) (shows_fresh fresh (by decide))
  rw [shows_bind]
  refine shows_mono (fun _ w fresh => ?_) (shows_fresh fresh (by decide))
  refine shows_forM (fun w => Fresh w.2) fresh fun i hi w fresh => ?_
  have hi := List.mem_range.mp hi
  split
  all_goals
    rw [shows_bind]
    refine shows_mono (fun _ w fresh => ?_) (shows_fresh fresh (by decide))
    rw [shows_bind]
    refine shows_mono (fun _ w fresh => ?_) (shows_fresh fresh (label i hi))
    exact shows_fresh fresh (by decide)

/-- The digit after `BD_PROCHOT: ` is bit 0 of the register. -/
theorem shows_flag {α : Type} {rest : C α} {Q : α → UInt64 × View → Prop} (fresh : Fresh view)
    (on : ∀ view, Fresh view → Shows rest Q (v, view)) :
    Shows
      (do
        strOut "BD_PROCHOT: "
        let val ← asmReadMsr64 powerCtl
        strOut (if val &&& 1 ≠ 0 then "1" else "0")
        rest) Q (v, view) := by
  have printed : (if v &&& 1 ≠ 0 then "1" else "0") = digit (bit 0 v) := by
    by_cases set : bit 0 v = true
    · rw [if_pos ((odd_iff v).mpr set), set]
      rfl
    · rw [if_neg fun h => set ((odd_iff v).mp h), Bool.eq_false_iff.mpr set]
      rfl
  have label : "BD_PROCHOT: " ∉ messages := by decide
  have plain : digit (bit 0 v) ∉ messages := fun h => digit_plain _ (List.mem_cons_of_mem _ h)
  have asked : (view.add ["BD_PROCHOT: "]).asked = none := fresh.1.1
  rw [shows_bind]
  refine (shows_outputString _ _).mpr
    ⟨truthful_print fresh.1.1 label fun last => absurd last fresh.1.2, ?_⟩
  rw [see_print fresh.1.1 label, shows_bind, shows_asmReadMsr64, printed, shows_bind]
  refine (shows_outputString _ _).mpr ⟨truthful_print asked plain fun _ => rfl, ?_⟩
  rw [see_print asked plain]
  refine on _ ⟨⟨fresh.1.1, fun last => ?_⟩, fun head hh h => ?_⟩
  · have last := List.getLast?_concat.symm.trans last
    refine digit_plain (bit 0 v) (Option.some.inj last ▸ ?_)
    decide
  · rcases List.mem_append.mp h with h | h
    · rcases List.mem_append.mp h with h | h
      · exact fresh.2 head hh h
      · rw [List.mem_singleton.mp h] at hh
        revert hh
        decide
    · rw [List.mem_singleton.mp h] at hh
      revert hh
      cases bit 0 v <;> decide

/-- A round of `menuloop` begins with an empty screen and ends with no row on it. -/
theorem shows_menuRound (x : UInt8 × InputKey) (ready : Ready view) :
    Shows (menuRound x) (afterRound (fun _ w => Ready w.2) fun _ w => Fresh w.2) (v, view) := by
  obtain ⟨choice, key⟩ := x
  have cleared : Fresh { view with screen := [] } :=
    ⟨⟨ready.1, fun h => nomatch h⟩, fun _ _ => List.not_mem_nil⟩
  unfold menuRound scrClear
  rw [shows_bind, shows_reach, shows_bind, shows_reset, shows_bind]
  refine shows_mono (fun _ w fresh => ?_) (shows_fresh cleared (by decide))
  rw [shows_bind]
  refine shows_mono (fun _ w fresh => ?_) (shows_fresh fresh (by decide))
  rw [shows_bind]
  refine shows_mono (fun _ ⟨v, view⟩ fresh => ?_) (shows_fresh fresh (by decide))
  refine shows_flag fresh fun view fresh => ?_
  rw [shows_bind]
  refine shows_mono (fun _ ⟨v, view⟩ fresh => ?_) (shows_menu choice fresh)
  rw [shows_bind, shows_waitForEvent, shows_bind, shows_readKeyStroke]
  intro r
  cases press choice (r.stored.getD key) with
  | inl choice => exact fresh.1
  | inr choice => exact fresh

/-- By the invariant that the screen is ready at the start of a round. -/
theorem shows_menuloop (ready : Ready view) :
    Shows menuloop (fun _ w => Fresh w.2) (v, view) := by
  unfold menuloop
  rw [shows_bind, shows_keyLocal]
  intro key
  exact shows_iter (fun _ w => Ready w.2) ready fun x ⟨_, _⟩ ready => shows_menuRound x ready

theorem shows_choose (choice : UInt8) (fresh : Fresh view) :
    Shows (choose choice) (fun _ w => Ready w.2) (v, view) := by
  unfold choose
  rw [shows_bind, shows_reach]
  split
  · rw [shows_bind]
    refine shows_read0x1fc fresh.1 ?_
    rw [shows_waitForEvent]
    exact ready_add fresh.1 (rowOf_plain (by decide) v)
  split
  · exact shows_edit .clear fresh
  split
  · exact shows_edit .set fresh
  · exact fresh.1

theorem shows_mainLoop (ready : Ready view) :
    Shows (mainLoop 1) (fun _ _ => True) (v, view) := by
  refine shows_iter (fun _ w => Ready w.2) ready fun choice ⟨_, _⟩ ready => ?_
  unfold mainRound
  split
  · rw [shows_bind]
    refine shows_mono (fun choice ⟨_, _⟩ fresh => ?_) (shows_menuloop ready)
    rw [shows_bind]
    exact shows_mono (fun _ _ ready => ready) (shows_choose choice fresh)
  · trivial

/-- The view before anything is printed. -/
def blank : View := ⟨[], none, none⟩

theorem shows_efiMain (v : UInt64) : Shows efiMain (fun _ _ => True) (v, blank) := by
  have ready : Ready blank := ⟨rfl, fun h => nomatch h⟩
  have message : msgInteractive ∉ messages := by decide
  unfold efiMain scrClear
  rw [shows_bind, shows_reset, shows_bind]
  refine shows_mono ?_ (shows_toMsg (by decide)
    (truthful_print ready.1 message fun last => absurd last ready.2) ?_)
  · intro pressed ⟨v, view⟩ ⟨_, ready⟩
    split
    · rw [shows_bind]
      exact shows_mono (fun _ _ _ => trivial) (shows_mainLoop ready)
    · trivial
  · show Ready (see blank ⟨.outputString msgInteractive, ()⟩)
    rw [see_print ready.1 message]
    exact ready_add ready (by decide)

/-- What the observer remembers of the events of a run. -/
def viewOf (es : List (Event (firmware Point))) : View := es.foldl see blank

/-- **What the screen says is what the register holds.** Every event of every run is truthful, with
the register before it and the view of the events before it. -/
theorem efiMain_truthful {v₀ v : UInt64} {tr : List (Step (firmware Point) UInt64)}
    {out : Option Status} (run : Run keeping v₀ efiMain tr v out) :
    ∀ pre st post, tr = pre ++ st :: post →
      Truthful st.before (viewOf (events pre)) st.event :=
  (run.observed (shows_efiMain v₀)).1

/-- Esc, option 3, a no, a dismissed message, option 3, a yes, a dismissed message, option 0. -/
def setScript : Script :=
  ⟨[scanned scanEsc, typed '3', typed 'n', typed '\r', typed '3', typed 'y', typed '\r', typed '0'],
    ⟨0, 0⟩, 6⟩

/-- Its session, which writes once. -/
def setSession : Execution (firmware Point) Script Status :=
  exec (script fun _ v => v) 10 efiMain setScript

theorem setSession_run :
    Run keeping 6 efiMain (setSession.steps.map (Step.map Script.register))
      setSession.world.register setSession.outcome.value? := by
  unfold setSession
  exact @script_run _ _ (fun _ v => v) (fun v v' => v' = v) (fun _ _ => rfl) 10 efiMain setScript

theorem efiMain_truthful_setSession :
    setSession.world.register = 7 ∧ (viewOf (events setSession.steps)).result = some 7 ∧
    ∀ pre st post, setSession.steps.map (Step.map Script.register) = pre ++ st :: post →
      Truthful st.before (viewOf (events pre)) st.event :=
  ⟨by decide +kernel, by decide +kernel, efiMain_truthful setSession_run⟩

end ZeroProcHot.Tmp
