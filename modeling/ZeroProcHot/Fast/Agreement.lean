import ZeroProcHot.Fast.Program
import ZeroProcHot.Tmp.Register

/-!
# The two programs agree

The fast program makes of the register what the interactive program's change `clear` makes of it,
with one write when the flag is set and none when it is not.
-/

namespace ZeroProcHot.Fast

open Interact Efi Tmp

/-- The number of writes, event by event. -/
def count {P : Type} (n : Nat) (e : Event (firmware P)) : Nat :=
  match e.call with
  | .wrmsr _ _ _ => n + 1
  | _ => n

/-- The number of writes of a run. -/
def writes {P W : Type} (tr : List (Step (firmware P) W)) : Nat := after count 0 tr

/-! ## Clearing on halves -/

/-- Clearing, bit by bit. -/
theorem bit_clear (v : UInt64) (i : Nat) :
    bit i (Change.clear.apply v) = if i = 0 then false else bit i v :=
  Change.bit_applyAll [.clear] v i

/-- A value whose bit 0 is clear is not changed. -/
theorem clear_eq {v : UInt64} (h : bit 0 v = false) : Change.clear.apply v = v := by
  apply bit_ext
  intro i _
  rw [bit_clear]
  by_cases hi : i = 0
  · rw [if_pos hi, hi, h]
  · rw [if_neg hi]

/-- Clearing twice is clearing once. -/
theorem clear_clear (v : UInt64) :
    Change.clear.apply (Change.clear.apply v) = Change.clear.apply v :=
  clear_eq (bit_clear v 0)

/-- The mask of the low half does to the value what the mask of the value does. -/
theorem halves_clear (v : UInt64) :
    halves (Change.clear.apply v) = ⟨(halves v).low &&& zerobitzero, (halves v).high⟩ := by
  have low : (v &&& clearZero).toUInt32 = v.toUInt32 &&& zerobitzero := by
    rw [UInt64.toUInt32_and]
    rfl
  have high : ((v &&& clearZero) >>> 32).toUInt32 = (v >>> 32).toUInt32 := by
    have mask : (clearZero >>> 32).toUInt32 = -1 := by decide
    rw [UInt64.shiftRight_and, UInt64.toUInt32_and, mask, UInt32.and_neg_one]
  show halves (v &&& clearZero) = _
  unfold halves
  rw [low, high]

/-- The test of the low half is the test of bit 0. -/
theorem low_odd (v : UInt64) : (halves v).low.toUInt64 &&& 1 ≠ 0 ↔ bit 0 v = true := by
  have low : bit 0 (halves v).low.toUInt64 = bit 0 v := by
    show ((v.toBitVec.setWidth 32).setWidth 64).getLsbD 0 = v.toBitVec.getLsbD 0
    simp only [BitVec.getLsbD_setWidth, Nat.zero_lt_succ, decide_true, Bool.true_and]
  rw [odd_iff, low]

/-! ## The fast program -/

/-- **What the fast program does**: it clears bit 0, with one write or none. -/
theorem wp_efiMain (g : Globals) (v : UInt64) :
    wp (observe keeping count) (fun _ _ _ => True) (efiMain g)
      (fun _ w => w = (Change.clear.apply v, if bit 0 v then 1 else 0)) (v, 0) := by
  unfold efiMain printHead asmWriteMsr64 asmReadMsr64
  simp only [wp_bind, wp_outputString, wp_rdmsr, wp_wrmsr, wp_pure, wp_ite, observe, true_and,
    Prod.forall]
  intro v₁ n₁ header r v₂ n₂ first
  obtain ⟨printed, quiet⟩ := header
  obtain ⟨read, quiet'⟩ := first
  obtain rfl : v₁ = v := printed
  obtain ⟨rfl, rfl⟩ : r = halves v₁ ∧ v₂ = v₁ := ⟨read.1 rfl, read.2⟩
  subst quiet quiet'
  by_cases flag : bit 0 v₂ = true
  · rw [if_pos ((low_odd v₂).mpr flag)]
    intro v₃ n₃ write r' v₄ n₄ second
    obtain ⟨written, one⟩ := write
    obtain ⟨again, one'⟩ := second
    subst one one'
    have cleared : v₃ = Change.clear.apply v₂ := by
      have same := congrArg Halves.value (halves_clear v₂)
      rw [value_halves] at same
      exact (written.trans (if_pos rfl)).trans same.symm
    rw [again.2, cleared, if_pos flag]
    rfl
  · rw [if_neg fun odd => flag ((low_odd v₂).mp odd), if_neg flag, clear_eq (Bool.eq_false_iff.mpr flag)]
    rfl

/-- What a finished run leaves: bit 0 cleared, by one write if it was set. -/
theorem efiMain_leaves {g : Globals} {v v' : UInt64} {tr : List (Step (firmware Empty) UInt64)}
    {out : Status × Globals} (run : Run keeping v (efiMain g) tr v' (some out)) :
    v' = Change.clear.apply v ∧ writes tr = if bit 0 v then 1 else 0 := by
  have leaves := (run.observed (wp_efiMain g v)).2 out rfl
  exact Prod.mk.inj leaves

/-- A read returns the halves of the register. -/
theorem asmReadMsr64_returns (g : Globals) (v : UInt64) :
    Returns keeping v (asmReadMsr64 g) v
      ((halves v).low.toUInt64, ⟨(halves v).low, (halves v).high⟩) :=
  ⟨_, .call ⟨fun _ => rfl, rfl⟩ .ret⟩

/-- A write and the read after it return. -/
theorem asmWriteMsr64_returns (g : Globals) (v : UInt64) :
    ∃ v' x, Returns keeping v (asmWriteMsr64 g) v' x := by
  have write : Returns keeping v (wrmsr powerCtl (g.low &&& zerobitzero) g.high : C Unit)
      (Halves.value ⟨g.low &&& zerobitzero, g.high⟩) () := ⟨_, .call (if_pos rfl).symm .ret⟩
  exact ⟨_, _, write.bind (asmReadMsr64_returns g _)⟩

/-- The program has no loop: it returns. -/
theorem efiMain_returns (g : Globals) (v : UInt64) :
    ∃ v' out, Returns keeping v (efiMain g) v' out := by
  have head : Returns keeping v printHead v () := ⟨_, .call rfl .ret⟩
  have read := asmReadMsr64_returns g v
  obtain ⟨v', x, write⟩ := asmWriteMsr64_returns ⟨(halves v).low, (halves v).high⟩ v
  unfold efiMain
  by_cases odd : (halves v).low.toUInt64 &&& 1 ≠ 0
  · refine ⟨v', (.success, x.2), head.bind (read.bind ?_)⟩
    dsimp only
    rw [if_pos odd]
    exact write.bind ⟨_, .ret⟩
  · refine ⟨v, (.success, ⟨(halves v).low, (halves v).high⟩), head.bind (read.bind ?_)⟩
    dsimp only
    rw [if_neg odd]
    exact ⟨_, .ret⟩

/-! ## The interactive program -/

/-- A session whose confirmed changes all clear the flag clears it. -/
theorem applyAll_clear {cs : List Change} (some : .clear ∈ cs) (none : .set ∉ cs) (v : UInt64) :
    Change.applyAll cs v = Change.clear.apply v := by
  have last : cs.getLast?.elim (bit 0 v) Change.bit = false := by
    cases h : cs.getLast? with
    | none =>
      rw [List.getLast?_eq_none_iff.mp h] at some
      exact absurd some List.not_mem_nil
    | some c =>
      cases c with
      | clear => rfl
      | set => exact absurd (List.mem_of_getLast? h) none
  apply bit_ext
  intro i _
  rw [Change.bit_applyAll, last, bit_clear]

/-- **The two programs agree.** The fast program returns, and wherever it does it has cleared bit 0
of the register, changed no other bit, and written once if the flag was set and not at all
otherwise. Run again it changes and writes nothing. And every run of the interactive program that
has confirmed a clear and no set has the same register. -/
theorem efiMain_agrees (g : Globals) (v : UInt64) :
    (∃ v' out, Returns keeping v (efiMain g) v' out) ∧
    ∀ tr v' out, Run keeping v (efiMain g) tr v' (some out) →
      (bit 0 v' = false ∧ SameAbove v' v ∧ writes tr = if bit 0 v then 1 else 0) ∧
      (∀ g₂ tr₂ v₂ out₂, Run keeping v' (efiMain g₂) tr₂ v₂ (some out₂) →
        v₂ = v' ∧ writes tr₂ = 0) ∧
      ∀ tr₃ v₃ out₃, Run keeping v Tmp.efiMain tr₃ v₃ out₃ →
        .clear ∈ changes (events tr₃) → .set ∉ changes (events tr₃) → v₃ = v' := by
  refine ⟨efiMain_returns g v, fun tr v' out run => ?_⟩
  obtain ⟨rfl, written⟩ := efiMain_leaves run
  refine ⟨⟨bit_clear v 0, fun i _ hi => ?_, written⟩, fun g₂ tr₂ v₂ out₂ again => ?_, ?_⟩
  · rw [bit_clear, if_neg hi]
  · obtain ⟨same, writes⟩ := efiMain_leaves again
    rw [same, writes, clear_clear, bit_clear]
    exact ⟨rfl, rfl⟩
  · intro tr₃ v₃ out₃ session some none
    rw [(register_law session).register]
    exact applyAll_clear some none v

/-- The fast program on the register that `clearSession` starts from. -/
def fastRun : Execution (firmware Empty) Script (Status × Globals) :=
  exec (script fun _ v => v) 0 (efiMain ⟨7, 7⟩) ⟨[], ⟨0, 0⟩, 5⟩

theorem fastRun_run :
    Run keeping 5 (efiMain ⟨7, 7⟩) (fastRun.steps.map (Step.map Script.register))
      fastRun.world.register (some (.success, ⟨4, 0⟩)) := by
  unfold fastRun
  exact @script_run _ _ (fun _ v => v) (fun v v' => v' = v) (fun _ _ => rfl) 0 (efiMain ⟨7, 7⟩)
    ⟨[], ⟨0, 0⟩, 5⟩

theorem efiMain_agrees_clearSession :
    fastRun.world.register = 4 ∧ clearSession.world.register = fastRun.world.register := by
  refine ⟨by decide +kernel, ?_⟩
  exact ((efiMain_agrees ⟨7, 7⟩ 5).2 _ _ _ fastRun_run).2.2 _ _ _ clearSession_run
    (by rw [events_map]; decide +kernel) (by rw [events_map]; decide +kernel)

end ZeroProcHot.Fast
