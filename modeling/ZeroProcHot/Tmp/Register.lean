import Mathlib.Data.List.Infix
import ZeroProcHot.Efi.Platform
import ZeroProcHot.Tmp.Protocol

/-!
# The register over a session

On a platform where only the program changes register 0x1FC, the register is at every point of
every run the initial value with the confirmed changes applied in their order (`register_law`), so
bit 0 is what the last of them made it and no other bit moves. The start-up poll and the label
`mnu` decide between them whether the register is touched at all and how the program ends
(`boot_law`, `off_law`).
-/

namespace ZeroProcHot.Tmp

open Interact Efi Session

/-! ## What the events of a run say -/

/-- The change that a state goes on to make: the key that `ConfirmAndWrite` has read is none of
those it takes as a no. -/
def confirmed : Session → List Change
  | .cleared c _ key => if aborts key then [] else [c]
  | _ => []

/-- The confirmed changes of the events after a state. A change counts from the call that follows
`ConfirmAndWrite`'s look at the key. -/
def changesFrom : Session → List (Event (firmware Point)) → List Change
  | _, [] => []
  | s, e :: es => confirmed s ++ changesFrom (s.next e) es

/-- The confirmed changes of a run. -/
def changes (es : List (Event (firmware Point))) : List Change := changesFrom start es

/-- The key variable, and what it held after each read. -/
def look : InputKey × List InputKey → Event (firmware Point) → InputKey × List InputKey
  | (_, keys), ⟨.keyLocal, (k : InputKey)⟩ => (k, keys)
  | (key, keys), ⟨.readKeyStroke, r⟩ => (content key r, keys ++ [content key r])
  | s, _ => s

/-- The key variable after the events of a run, and what it held after each read. -/
def looked (es : List (Event (firmware Point))) : InputKey × List InputKey :=
  es.foldl look (⟨0, 0⟩, [])

/-- What the prompts have seen in the key variable, read by read. -/
def seen (es : List (Event (firmware Point))) : List InputKey := (looked es).2

/-- The choices `menuloop` has returned. -/
def selections (es : List (Event (firmware Point))) : List UInt8 :=
  es.filterMap fun e =>
    match e.call with
    | .reach (.choose choice) => some choice
    | _ => none

/-- The changes of a run are those of its parts, the second from where the first ends. -/
theorem changesFrom_append (s : Session) (es es' : List (Event (firmware Point))) :
    changesFrom s (es ++ es') = changesFrom s es ++ changesFrom (protocol.state s es) es' := by
  induction es generalizing s with
  | nil => rfl
  | cons e es ih =>
    simp only [List.cons_append, changesFrom, ih, List.append_assoc, Protocol.state_cons,
      protocol_next]

/-- One more event adds the change that was confirmed, if there is one. -/
theorem changes_concat (es : List (Event (firmware Point))) (e : Event (firmware Point)) :
    changes (es ++ [e]) = changes es ++ confirmed (protocol.state start es) := by
  unfold changes
  rw [changesFrom_append]
  simp only [changesFrom, List.append_nil]

/-- A step is the write of the confirmed change, or there is neither a write nor such a change. -/
theorem write_cases {s s' : Session} {e : Event (firmware Point)} (step : Move s e s') :
    (∃ c val, s.held = some val ∧ s'.held = none ∧ confirmed s = [c] ∧
      e = ⟨.wrmsr powerCtl (halves (c.apply val)).low (halves (c.apply val)).high, ()⟩) ∨
    (confirmed s = [] ∧ ∀ addr low high, e.call ≠ .wrmsr addr low high) := by
  cases step with
  | @write c val key hk => exact .inl ⟨c, val, rfl, rfl, if_neg hk, rfl⟩
  | abort hk => exact .inr ⟨if_pos hk, fun _ _ _ h => nomatch h⟩
  | plain isOpen plain =>
    refine .inr ⟨?_, fun addr low high h => ?_⟩
    · cases s with
      | cleared c val key => exact isOpen.elim
      | _ => rfl
    · rw [h] at plain
      exact plain
  | _ => exact .inr ⟨rfl, fun _ _ _ h => nomatch h⟩

/-! ## The register law -/

/-- The register is what the confirmed changes make of the initial value, and the change in hand
was computed from the register as it is. -/
structure Kept (v₀ v : UInt64) (es : List (Event (firmware Point))) : Prop where
  register : v = Change.applyAll (changes es) v₀
  current : ∀ val, (protocol.state start es).held = some val → val = v

/-- A step keeps the register to the changes so far. -/
theorem kept_step {v₀ v v' : UInt64} {es : List (Event (firmware Point))}
    {e : Event (firmware Point)} (kept : Kept v₀ v es)
    (allowed : (protocol.state start es).allows e.call) (step : keeping v e v') :
    Kept v₀ v' (es ++ [e]) := by
  have moved := move allowed
  have later : protocol.state start (es ++ [e]) = (protocol.state start es).next e := by
    rw [Protocol.state_append, Protocol.state_cons, Protocol.state_nil, protocol_next]
  rcases write_cases moved with ⟨c, val, held, beyond, now, write⟩ | ⟨none, silent⟩
  · obtain rfl := kept.current val held
    subst write
    have after : v' = c.apply val := step.trans ((if_pos rfl).trans (value_halves _))
    constructor
    · rw [changes_concat, now, Change.applyAll_concat, ← kept.register]
      exact after
    · intro val' held'
      rw [later, beyond] at held'
      cases held'
  · have same := keeping_same step silent
    constructor
    · rw [changes_concat, none, List.append_nil, same]
      exact kept.register
    · intro val held
      rw [later] at held
      rcases held_move moved held with ⟨before, _⟩ | ⟨r, rfl, rfl⟩
      · exact (kept.current val before).trans same.symm
      · rw [step.1 rfl, value_halves, same]

/-- **The register is the initial value with the confirmed changes applied**, at the end of every
run, and a run may end anywhere. -/
theorem register_law {v₀ v : UInt64} {tr : List (Step (firmware Point) UInt64)}
    {out : Option Status} (run : Run keeping v₀ efiMain tr v out) : Kept v₀ v (events tr) := by
  have start : Kept v₀ v₀ [] := ⟨rfl, fun _ h => nomatch h⟩
  exact (run.law efiMain_conforms (Kept v₀) (fun _ _ _ _ => True) start
    fun _ _ _ _ kept allowed step => ⟨trivial, kept_step kept allowed step⟩).2

/-! ## The start-up poll and the end -/

/-- The keys are followed event by event. -/
theorem looked_concat (es : List (Event (firmware Point))) (e : Event (firmware Point)) :
    looked (es ++ [e]) = look (looked es) e := List.foldl_append

theorem look_plain {e : Event (firmware Point)} (plain : Plain e.call)
    (s : InputKey × List InputKey) : look s e = s := by
  obtain ⟨call, r⟩ := e
  cases call with
  | keyLocal => exact plain.elim
  | readKeyStroke => exact plain.elim
  | _ => rfl

/-- Keys once seen stay seen. -/
theorem seen_grows (es : List (Event (firmware Point))) (e : Event (firmware Point)) :
    seen es <+: seen (es ++ [e]) := by
  unfold seen
  rw [looked_concat]
  obtain ⟨call, r⟩ := e
  cases call with
  | readKeyStroke => exact List.prefix_append _ _
  | _ => exact List.prefix_refl _

/-- The start-up poll: while it lasts, its reads have shown nothing that ends it and no register has
been accessed; after it, one of its reads showed a key that ends it. -/
def Booted (es : List (Event (firmware Point))) : Session → Prop
  | .boot left key =>
    looked es = (key, seen es) ∧ (seen es).length + left = 10 ∧ (∀ k ∈ seen es, ¬ dismisses k) ∧
      ∀ e ∈ es, accesses e.call = none
  | _ => ∃ k ∈ (seen es).take 10, dismisses k

theorem booted_over {es : List (Event (firmware Point))} {s : Session}
    (beyond : ∀ left key, s ≠ .boot left key) :
    Booted es s ↔ ∃ k ∈ (seen es).take 10, dismisses k := by
  cases s with
  | boot left key => exact absurd rfl (beyond left key)
  | _ => exact Iff.rfl

/-- The start-up poll does not access the register. -/
theorem boot_accesses {left : Nat} {key : InputKey} {c : Call Point}
    (allowed : (boot left key).allows c) : accesses c = none := by
  cases c with
  | rdmsr addr => exact allowed.elim
  | wrmsr addr low high => exact allowed.elim
  | _ => rfl

/-- A step of the start-up poll that reads no key. -/
theorem booted_local {es : List (Event (firmware Point))} {e : Event (firmware Point)} {left : Nat}
    {key key' : InputKey} (booted : Booted es (.boot left key))
    (allowed : (boot left key).allows e.call) (next : look (key, seen es) e = (key', seen es)) :
    Booted (es ++ [e]) (.boot left key') := by
  obtain ⟨last, count, idle, quiet⟩ := booted
  have looked' : looked (es ++ [e]) = (key', seen es) := by rw [looked_concat, last, next]
  have seen' : seen (es ++ [e]) = seen es := by rw [seen, looked']
  refine ⟨by rw [looked', seen'], by rw [seen', count], by rw [seen']; exact idle, ?_⟩
  intro e' h
  rcases List.mem_append.mp h with before | now
  · exact quiet e' before
  · rw [List.mem_singleton.mp now]
    exact boot_accesses allowed

/-- One read of the start-up poll. -/
theorem booted_read {es : List (Event (firmware Point))} {left : Nat} {key : InputKey}
    {r : ReadResult} (booted : Booted es (.boot (left + 1) key)) :
    Booted (es ++ [⟨.readKeyStroke, r⟩]) (polled (.boot left) (content key r)) := by
  obtain ⟨last, count, idle, quiet⟩ := booted
  have looked' : looked (es ++ [⟨.readKeyStroke, r⟩]) =
      (content key r, seen es ++ [content key r]) := by
    rw [looked_concat, last]
    rfl
  have seen' : seen (es ++ [⟨.readKeyStroke, r⟩]) = seen es ++ [content key r] :=
    congrArg Prod.snd looked'
  have length : (seen (es ++ [⟨.readKeyStroke, r⟩])).length + left = 10 := by
    rw [seen', List.length_append, List.length_singleton]
    omega
  rcases polled_cases (.boot left) (content key r) with ⟨hk, same⟩ | ⟨hk, same⟩
  · rw [same]
    refine ⟨content key r, ?_, hk⟩
    rw [List.take_of_length_le (by omega), seen']
    exact List.mem_append_right _ List.mem_cons_self
  · rw [same]
    refine ⟨by rw [looked', seen'], length, ?_, ?_⟩
    · intro k h
      rw [seen'] at h
      rcases List.mem_append.mp h with before | now
      · exact idle k before
      · rw [List.mem_singleton.mp now]
        exact hk
    · intro e h
      rcases List.mem_append.mp h with before | now
      · exact quiet e before
      · rw [List.mem_singleton.mp now]
        rfl

/-- A step keeps what is known of the start-up poll. -/
theorem booted_step {es : List (Event (firmware Point))} {e : Event (firmware Point)}
    {s : Session} (booted : Booted es s) (allowed : s.allows e.call) :
    Booted (es ++ [e]) (s.next e) := by
  have step := move allowed
  by_cases hs : ∃ left key, s = .boot left key
  · obtain ⟨left, key, rfl⟩ := hs
    generalize (boot left key).next e = s' at step
    cases step with
    | plain _ plain => exact booted_local booted allowed (look_plain plain _)
    | bootLocal => exact booted_local booted allowed rfl
    | bootRead => exact booted_read booted
  · have beyond : ∀ left key, s ≠ .boot left key := fun left key h => hs ⟨left, key, h⟩
    have beyond' : ∀ left key, s.next e ≠ .boot left key := by
      intro left key h
      rw [h] at step
      exact hs (boot_move step)
    obtain ⟨k, hk, ends⟩ := (booted_over beyond).mp booted
    exact (booted_over beyond').mpr ⟨k, ((seen_grows es e).take 10).subset hk, ends⟩

/-- **The start-up poll decides whether the menu is reached.** -/
theorem boot_law {W : Type} {E : Env (firmware Point) W} {w w' : W}
    {tr : List (Step (firmware Point) W)} {out : Option Status} (run : Run E w efiMain tr w' out) :
    Booted (events tr) (protocol.state start (events tr)) := by
  have before : Booted [] start :=
    ⟨rfl, rfl, fun _ h => absurd h List.not_mem_nil, fun _ h => absurd h List.not_mem_nil⟩
  exact session_law run Booted before fun _ _ _ => booted_step

/-- **The program's end**: a session is over only after `menuloop` has returned 0. -/
theorem off_law {W : Type} {E : Env (firmware Point) W} {w w' : W}
    {tr : List (Step (firmware Point) W)} {out : Option Status} (run : Run E w efiMain tr w' out)
    (beyond : protocol.state start (events tr) = .off) :
    (selections (events tr)).getLast? = some 0 := by
  refine session_law run (fun es s => s = .off → (selections es).getLast? = some 0)
    (fun h => nomatch h) ?_ beyond
  intro es s e _ allowed beyond
  have step := move allowed
  rw [beyond] at step
  obtain rfl := off_move step
  rw [selections, List.filterMap_append]
  exact List.getLast?_concat

/-- A register access is to register 0x1FC. -/
theorem accesses_powerCtl {s : Session} {c : Call Point} {addr : UInt32} (allowed : s.allows c)
    (h : accesses c = some addr) : addr = powerCtl := by
  cases c with
  | rdmsr addr' =>
    cases h
    exact allows_rdmsr allowed
  | wrmsr addr' low high =>
    cases h
    obtain ⟨_, _, _, _, _, known, _⟩ := allows_wrmsr allowed
    exact known
  | _ => cases h

/-- **What a run does to the register.** A run may end at any call, so this holds at every point of
every run: only bit 0 can differ from the initial value, and it is what the last confirmed change
made it. No other register is accessed, none at all when the start-up poll ends without a key, and
the program returns only then or when `menuloop` has returned 0. -/
theorem efiMain_register {v₀ v : UInt64} {tr : List (Step (firmware Point) UInt64)}
    {out : Option Status} (run : Run keeping v₀ efiMain tr v out) :
    SameAbove v v₀ ∧
    bit 0 v = (changes (events tr)).getLast?.elim (bit 0 v₀) Change.bit ∧
    (∀ st ∈ tr, ∀ addr, accesses st.event.call = some addr → addr = powerCtl) ∧
    ((∀ key ∈ (seen (events tr)).take 10, ¬ dismisses key) →
      ∀ st ∈ tr, accesses st.event.call = none) ∧
    (out.isSome →
      ((seen (events tr)).length = 10 ∧ ∀ key ∈ seen (events tr), ¬ dismisses key) ∨
      (selections (events tr)).getLast? = some 0) := by
  have register := (register_law run).register
  have booted := boot_law run
  obtain ⟨allowed, ended⟩ := run.follows efiMain_conforms
  refine ⟨fun i _ hi => ?_, ?_, fun st hst addr access => ?_, fun idle => ?_, fun returned => ?_⟩
  · rw [register, Change.bit_applyAll, if_neg hi]
  · rw [register, Change.bit_applyAll, if_pos rfl]
  · obtain ⟨pre, post, cut⟩ := List.append_of_mem hst
    exact accesses_powerCtl (allowed pre st post cut) access
  · by_cases boot : ∃ left key, protocol.state start (events tr) = .boot left key
    · obtain ⟨left, key, boot⟩ := boot
      rw [boot] at booted
      intro st hst
      exact booted.2.2.2 st.event (List.mem_map_of_mem hst)
    · obtain ⟨key, hkey, ends⟩ :=
        (booted_over fun left key h => boot ⟨left, key, h⟩).mp booted
      exact absurd ends (idle key hkey)
  · obtain ⟨status, rfl⟩ := Option.isSome_iff_exists.mp returned
    rcases ended status rfl with off | ⟨key, boot⟩
    · exact .inr (off_law run off)
    · rw [boot] at booted
      exact .inl ⟨booted.2.1, booted.2.2.1⟩

/-- Esc, option 2, a yes, a dismissed message, option 0. -/
def clearScript : Script :=
  ⟨[scanned scanEsc, typed '2', typed 'y', typed '\r', typed '0'], ⟨0, 0⟩, 5⟩

/-- The session that follows the script. -/
def clearSession : Execution (firmware Point) Script Status :=
  exec (script fun _ v => v) 10 efiMain clearScript

theorem clearSession_run :
    Run keeping 5 efiMain (clearSession.steps.map (Step.map Script.register))
      clearSession.world.register clearSession.outcome.value? := by
  unfold clearSession
  exact @script_run _ _ (fun _ v => v) (fun v v' => v' = v) (fun _ _ => rfl) 10 efiMain clearScript

theorem efiMain_register_clearSession :
    SameAbove clearSession.world.register 5 ∧ clearSession.world.register = 4 ∧
    changes (events clearSession.steps) = [.clear] ∧ clearSession.outcome = .returned .success ∧
    (selections (events clearSession.steps)).getLast? = some 0 := by
  refine ⟨(efiMain_register clearSession_run).1, ?_⟩
  decide +kernel

end ZeroProcHot.Tmp
