import BaSic.Proofs.CalcEval
import BaSic.Kernel.CmdCalc

namespace BaSic.Proofs.CalcSteps
open Kernel CalcGrammar CalcTree CalcEval

instance (x : Int) : Decidable (FitsI32 x) := inferInstanceAs (Decidable (_ ∧ _))

/-- The exact result of a step, which must be an `i32`. -/
def checked (x : Int) : Except Fault Int32 := if FitsI32 x then .ok (Int32.ofInt x) else .error .overflow

def checkedMul (op : MulOp) (val rhs : Int32) : Except Fault (Int32 × Bool) :=
  match mulValue op val.toInt rhs.toInt with
  | none => .ok (0, false)
  | some x =>
    if traps op val rhs then .error .overflow
    else do
      let val ← checked x
      .ok (val, true)

/-- The arithmetic of the evaluator, with a check of every step. -/
def checkedArith : Arith Int32 Int32 where
  start := 0
  digit val c := do
    let val ← checked (val.toInt * 10)
    checked (val.toInt + (c.toNat - 48 : Nat))
  number neg val := if neg then checked (-val.toInt) else .ok val
  zero := 0
  mul := checkedMul
  add op val rhs := do
    let val ← checked (addValue op val.toInt rhs.toInt)
    .ok (val, true)

/-- Every arithmetic step has a result that is an `i32` and does not trap, or else 0 is returned;
and the command does not trap. -/
def StepsFit (s : List UInt8) : Prop :=
  ((∃ out, evalWith checkedArith s = .ok out) ∨ calcEval s = .ok none) ∧ cmdCalc s ≠ .error .overflow

/-- Each step of the tree, on 32-bit operands, has a result that fits, and does not trap. -/
def Stepwise : Ast → Prop
  | .num n | .neg n => FitsI32 n
  | .mul op a b => Stepwise a ∧ Stepwise b ∧ traps op a.wrapped b.wrapped = false ∧
      ∀ x, mulValue op a.wrapped.toInt b.wrapped.toInt = some x → FitsI32 x
  | .add op a b => Stepwise a ∧ Stepwise b ∧ FitsI32 (addValue op a.wrapped.toInt b.wrapped.toInt)

variable {x : Int} {e : Ast}

theorem checked_answer (x : Int) : Answers (checked x) (FitsI32 x) (Int32.ofInt x) :=
  ⟨fun h => if_pos h, fun hno => ⟨.overflow, if_neg hno⟩⟩

theorem stepwise_number {neg : Bool} {n : Nat} : Stepwise (signed neg n) ↔ FitsI32 n := by
  cases neg with
  | true => rfl
  | false => rfl

theorem checked_digit (n : Nat) (c : UInt8) (hn : FitsI32 n) :
    Answers (checkedArith.digit (Int32.ofNat n) c) (FitsI32 (n * 10 + (c.toNat - 48) : Nat))
      (Int32.ofNat (n * 10 + (c.toNat - 48))) := by
  have hmul : (Int32.ofNat n).toInt * 10 = (n * 10 : Nat) := by
    rw [(number_wrap_value hn).1]
    push_cast
    rfl
  refine (checked_answer ((Int32.ofNat n).toInt * 10)).bind (fun hten => ?_) (fun hfits => ?_)
  · rw [hmul] at hten ⊢
    have hten' : (Int32.ofInt ((n * 10 : Nat) : Int)).toInt = (n * 10 : Nat) := Int32.toInt_ofInt_of_le hten.1 hten.2
    have hadd := checked_answer ((n * 10 : Nat) + (c.toNat - 48 : Nat))
    rw [hten']
    exact_mod_cast hadd
  · rw [hmul]
    unfold FitsI32 at *
    omega

theorem checked_number (neg : Bool) {n : Nat} (hn : FitsI32 n) :
    checkedArith.number neg (Int32.ofNat n) = .ok (signed neg n).wrapped := by
  cases neg with
  | true =>
    obtain ⟨-, hneg⟩ := number_wrap_value hn
    have hfits : FitsI32 (-(Int32.ofNat n).toInt) := by
      rw [(number_wrap_value hn).1]
      unfold FitsI32 at *
      omega
    refine ((checked_answer _).1 hfits).trans (congrArg Except.ok ?_)
    rw [(number_wrap_value hn).1, ← hneg]
    exact Int32.ofInt_toInt _
  | false => rfl

theorem checked_mul_answer (op : MulOp) (a b : Int32) : Answers (checkedMul op a b)
    (traps op a b = false ∧ ∀ x, mulValue op a.toInt b.toInt = some x → FitsI32 x) (mulWrap op a b, !byZero op b) := by
  unfold checkedMul
  cases hvalue : mulValue op a.toInt b.toInt with
  | none =>
    have hzero : b = 0 ∧ op ≠ .mul := by
      cases op with
      | mul => cases hvalue
      | div => exact ⟨to_int_eq_zero.mp (by simpa [mulValue] using hvalue), by decide⟩
      | mod => exact ⟨to_int_eq_zero.mp (by simpa [mulValue] using hvalue), by decide⟩
    obtain ⟨rfl, hop⟩ := hzero
    refine ⟨fun _ => ?_, fun hno => (hno ⟨?_, fun x hx => by cases hx⟩).elim⟩
    · cases op with
      | mul => exact absurd rfl hop
      | div => rfl
      | mod => rfl
    · cases op with
      | mul => rfl
      | div => simp [traps]
      | mod => simp [traps]
  | some x =>
    cases htrap : traps op a b with
    | true => exact ⟨fun h => Bool.noConfusion h.1, fun _ => ⟨.overflow, rfl⟩⟩
    | false =>
      refine (checked_answer x).bind (fun hx => ⟨fun _ => ?_, fun hno => ?_⟩) (fun h => h.2 x rfl)
      · have hfits : ∀ y, mulValue op a.toInt b.toInt = some y → FitsI32 y := by
          rw [hvalue]
          rintro y ⟨⟩
          exact hx
        have hwrap := mul_wrap_value hfits
        rw [hvalue] at hwrap
        split at hwrap
        · cases hwrap
        · rename_i hgo
          obtain rfl := Option.some.inj hwrap
          simp [hgo]
      · refine (hno ⟨rfl, ?_⟩).elim
        rintro y ⟨⟩
        exact hx

theorem checked_add_answer (op : AddOp) (a b : Int32) :
    Answers (checkedArith.add op a b) (FitsI32 (addValue op a.toInt b.toInt)) (addWrap op a b, true) := by
  refine (checked_answer _).bind (fun hfits => ?_) id
  rw [add_wrap_value hfits, Int32.ofInt_toInt]
  exact Answers.ok (add_wrap_value hfits ▸ hfits)

/-- The checks find the first step that does not fit. -/
theorem checked_follows : Follows checkedArith Stepwise Ast.wrapped where
  zero := rfl
  zero_good := show FitsI32 (0 : Nat) by decide
  number neg pos := by
    rw [stepwise_number]
    have hzero : FitsI32 (0 : Nat) := by decide
    have hdown : ∀ {n m : Nat}, n ≤ m → FitsI32 m → FitsI32 n := by
      unfold FitsI32
      omega
    have hdigits := digits_answer (p := fun n => FitsI32 n) hdown (fun n c _ => checked_digit n c) hzero pos
    refine hdigits.bind (fun hfits => ?_) id
    dsimp only
    rw [checked_number neg hfits]
    exact Answers.ok hfits
  mul op a b ha hb := by
    obtain ⟨hok, hfault⟩ := checked_mul_answer op a.wrapped b.wrapped
    exact ⟨fun h => hok h.2.2, fun hno => hfault (fun h => hno ⟨ha, hb, h⟩)⟩
  add op a b ha hb := by
    obtain ⟨hok, hfault⟩ := checked_add_answer op a.wrapped b.wrapped
    exact ⟨fun h => hok h.2.2, fun hno => hfault (fun h => hno ⟨ha, hb, h⟩)⟩
  mul_good h := ⟨h.1, h.2.1⟩
  add_good h := ⟨h.1, h.2.1⟩

theorem stepwise_quiet (h : Stepwise e) : e.Free trapDivision := by
  induction e with
  | num n => trivial
  | neg n => trivial
  | mul op a b iha ihb => exact ⟨iha h.1, ihb h.2.1, h.2.2.1⟩
  | add op a b iha ihb => exact ⟨iha h.1, ihb h.2.1⟩

/-- Where no divisor is 0, the checks come down to the exact values, and to the divisions that trap. -/
theorem stepwise_iff (h : e.Free zeroDivision) : Stepwise e ↔ e.Fits ∧ e.Free trapDivision := by
  have hvalue : ∀ {a : Ast}, a.Free zeroDivision → a.Fits → a.value = some a.wrapped.toInt := by
    intro a hfree hfits
    rcases value_cases hfits with ⟨-, hvalue⟩ | ⟨hnot, -⟩
    · exact hvalue
    · exact absurd hfree hnot
  induction e with
  | num n => simp [Stepwise, Ast.Fits, Ast.Free]
  | neg n => simp [Stepwise, Ast.Fits, Ast.Free]
  | mul op a b iha ihb =>
    obtain ⟨ha, hb, -⟩ := h
    simp only [Stepwise, Ast.Fits, Ast.Free, iha ha, ihb hb, trapDivision]
    constructor
    · rintro ⟨⟨hfa, hta⟩, ⟨hfb, htb⟩, htrap, hfits⟩
      refine ⟨⟨hfa, hfb, fun v hv => hfits v ?_⟩, hta, htb, htrap⟩
      simpa [Ast.value, hvalue ha hfa, hvalue hb hfb] using hv
    · rintro ⟨⟨hfa, hfb, hfits⟩, hta, htb, htrap⟩
      refine ⟨⟨hfa, hta⟩, ⟨hfb, htb⟩, htrap, fun v hv => hfits v ?_⟩
      simpa [Ast.value, hvalue ha hfa, hvalue hb hfb] using hv
  | add op a b iha ihb =>
    obtain ⟨ha, hb⟩ := h
    simp only [Stepwise, Ast.Fits, Ast.Free, iha ha, ihb hb]
    constructor
    · rintro ⟨⟨hfa, hta⟩, ⟨hfb, htb⟩, hfits⟩
      refine ⟨⟨hfa, hfb, fun v hv => ?_⟩, hta, htb⟩
      rw [Ast.value, hvalue ha hfa, hvalue hb hfb] at hv
      obtain rfl := Option.some.inj hv
      exact hfits
    · rintro ⟨⟨hfa, hfb, hfits⟩, hta, htb⟩
      refine ⟨⟨hfa, hta⟩, ⟨hfb, htb⟩, hfits _ ?_⟩
      rw [Ast.value, hvalue ha hfa, hvalue hb hfb]
      rfl

theorem calc_loop_quiet (left : Nat) (v : Int32) (text : List UInt8) : calcLoop left v text ≠ .error .overflow := by
  induction left generalizing v text with
  | zero =>
    unfold calcLoop
    split
    · simp
    · simp
  | succ left ih =>
    unfold calcLoop
    split
    · simp
    · exact ih _ _

/-- The digits of a value are got by dividing by 10 only. -/
theorem calc_text_quiet (v : Int32) : calcText v ≠ .error .overflow := by
  have hdigits : ∀ v, calcDigits v ≠ .error .overflow := by
    intro v
    unfold calcDigits
    split
    · simp
    · exact calc_loop_quiet 11 v []
  unfold calcText
  split
  · cases hneg : calcDigits (-v) with
    | error fault =>
      rintro ⟨⟩
      exact hdigits _ hneg
    | ok text => simp
  · exact hdigits v

theorem cmd_calc_quiet {s : List UInt8} {out : Option Int32} (h : calcEval s = .ok out) :
    cmdCalc s ≠ .error .overflow := by
  unfold cmdCalc
  split
  · simp
  · rw [h, ok_bind]
    cases out with
    | none => simp
    | some v =>
      have hquiet := calc_text_quiet v
      dsimp only
      generalize calcText v = text at hquiet ⊢
      cases text with
      | error fault => simpa using hquiet
      | ok text => simp

/-- The steps of an evaluation fit and do not trap, if and only if it comes to no division that
traps, and the numbers of the string fit if it is an expression without a zero divisor. -/
theorem steps_fit_iff (s : List UInt8) : StepsFit s ↔
    (treeOf s).Free trapDivision ∧ ∀ e, Expression s e → e.Free zeroDivision → e.Fits := by
  obtain ⟨out, htree, hout, hok, hfault⟩ := eval_follows i32_follows s
  obtain ⟨out', htree', -, hcheck, hunfit⟩ := eval_follows checked_follows s
  obtain rfl : out = out' := Except.ok.inj (htree.symm.trans htree')
  have htaken : ∀ e, Expression s e → e.Free zeroDivision → out = some e := fun e hexpr hfree =>
    Except.ok.inj (htree.symm.trans ((eval_tree_iff _ s e).mpr ⟨hexpr, hfree⟩))
  constructor
  · rintro ⟨⟨o, hchecked⟩ | hzero, -⟩
    · have hstep : Stepwise (treeOf s) := by
        by_contra hno
        obtain ⟨f, hf⟩ := hunfit hno
        cases hchecked.symm.trans hf
      refine ⟨stepwise_quiet hstep, fun e hexpr hfree => ?_⟩
      rw [← hout e (htaken e hexpr hfree)] at hstep
      exact ((stepwise_iff hfree).mp hstep).1
    · have hquiet : (treeOf s).Free trapDivision := by
        by_contra hno
        obtain ⟨f, hf⟩ := hfault hno
        cases hzero.symm.trans hf
      refine ⟨hquiet, fun e hexpr hfree => ?_⟩
      have hrun := hok hquiet
      rw [htaken e hexpr hfree] at hrun
      cases hzero.symm.trans hrun
  · rintro ⟨hquiet, hfits⟩
    have hrun : calcEval s = _ := hok hquiet
    refine ⟨?_, cmd_calc_quiet hrun⟩
    cases out with
    | none => exact Or.inr hrun
    | some e =>
      obtain ⟨hexpr, hfree⟩ := (eval_tree_iff _ s e).mp htree
      obtain rfl := hout e rfl
      exact Or.inl ⟨_, hcheck ((stepwise_iff hfree).mpr ⟨hfits _ hexpr hfree, hquiet⟩)⟩

/-- `(0-2147483647-1)/(0-1)` -/
def quotientOfLeast : List UInt8 :=
  [40, 48, 45, 50, 49, 52, 55, 52, 56, 51, 54, 52, 55, 45, 49, 41, 47, 40, 48, 45, 49, 41]

/-- `2147483647+1` -/
def sumPastLargest : List UInt8 := [50, 49, 52, 55, 52, 56, 51, 54, 52, 55, 43, 49]

/-- The quotient traps, and the sum is taken for an `i32`. -/
theorem steps_do_not_fit : cmdCalc quotientOfLeast = .error .overflow ∧ ¬ StepsFit quotientOfLeast ∧
    calcEval sumPastLargest = .ok (some Int32.minValue) ∧ ¬ StepsFit sumPastLargest := by
  have htrap : cmdCalc quotientOfLeast = .error .overflow := by decide
  have hwrap : calcEval sumPastLargest = .ok (some Int32.minValue) := by decide
  have hcheck : evalWith checkedArith sumPastLargest = .error .overflow := by decide
  refine ⟨htrap, fun h => h.2 htrap, hwrap, ?_⟩
  rintro ⟨⟨out, hout⟩ | hzero, -⟩
  · cases hcheck.symm.trans hout
  · cases hwrap.symm.trans hzero

end BaSic.Proofs.CalcSteps
