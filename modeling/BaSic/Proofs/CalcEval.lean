import BaSic.Proofs.CalcTree

namespace BaSic.Proofs.CalcEval
open Kernel CalcGrammar CalcTree

/-- Where the condition holds the computation has the result, and otherwise it faults. -/
def Answers {α : Type} (x : Except Fault α) (good : Prop) (a : α) : Prop :=
  (good → x = .ok a) ∧ (¬ good → ∃ f, x = .error f)

/-- The arithmetic computes the value of every good tree and faults at the others; what a good
tree is made of is good. -/
structure Follows {N V : Type} (A : Arith N V) (good : Ast → Prop) (value : Ast → V) : Prop where
  zero : A.zero = value (.num 0)
  zero_good : good (.num 0)
  number : ∀ (neg : Bool) (pos : List UInt8), Answers
    (do let (val, rest) ← readDigits A A.start pos; let val ← A.number neg val; .ok (val, rest))
    (good (signed neg (numeralFrom 0 (pos.takeWhile isDigit))))
    (value (signed neg (numeralFrom 0 (pos.takeWhile isDigit))), pos.dropWhile isDigit)
  mul : ∀ (op : MulOp) (a b : Ast), good a → good b →
    Answers (A.mul op (value a) (value b)) (good (.mul op a b)) (value (.mul op a b), !zeroDivision op a b)
  add : ∀ (op : AddOp) (a b : Ast), good a → good b →
    Answers (A.add op (value a) (value b)) (good (.add op a b)) (value (.add op a b), true)
  mul_good : ∀ {op : MulOp} {a b : Ast}, good (.mul op a b) → good a ∧ good b
  add_good : ∀ {op : AddOp} {a b : Ast}, good (.add op a b) → good a ∧ good b

/-- One parser computes the values of the trees of another. -/
def FollowsAt {V : Type} (good : Ast → Prop) (value : Ast → V) (tree : Calc → Except Fault (Ast × Calc))
    (parse : Calc → Except Fault (V × Calc)) : Prop :=
  ∀ s e t, tree s = .ok (e, t) → Answers (parse s) (good e) (value e, t)

section Answers
variable {α β : Type} {x : Except Fault α} {f : α → Except Fault β} {p q : Prop} {a : α} {b : β}

theorem Answers.ok (h : p) : Answers (.ok a) p a := ⟨fun _ => rfl, fun hno => absurd h hno⟩

theorem Answers.bind (hx : Answers x p a) (hf : p → Answers (f a) q b) (hqp : q → p) : Answers (x >>= f) q b := by
  by_cases hp : p
  · rw [hx.1 hp]
    exact hf hp
  · obtain ⟨fault, hfault⟩ := hx.2 hp
    rw [hfault]
    exact ⟨fun hq => absurd (hqp hq) hp, fun _ => ⟨fault, rfl⟩⟩

end Answers

section Simulation
variable {N V : Type} {A : Arith N V} {good : Ast → Prop} {value : Ast → V}
  {inner operand : Calc → Except Fault (Ast × Calc)} {inner' operand' : Calc → Except Fault (V × Calc)}

theorem number_follows (h : Follows A good value) (neg : Bool) :
    FollowsAt good value (parseNumber (treeArith zeroDivision) neg) (parseNumber A neg) := by
  intro s e t hrun
  by_cases hhead : s.pos.head?.any isDigit = true
  · rw [number_read neg hhead] at hrun
    obtain ⟨rfl, rfl⟩ := Prod.mk.inj (Except.ok.inj hrun)
    have hnumber := (h.number neg s.pos).bind (f := fun r => .ok (r.1, { s with pos := r.2 }))
      (fun hgood => Answers.ok hgood) id
    simpa [parseNumber, hhead] using hnumber
  · simp only [parseNumber, Bool.not_eq_true] at hhead hrun ⊢
    simp only [hhead, Bool.not_false, if_true] at hrun ⊢
    obtain ⟨rfl, rfl⟩ := Prod.mk.inj (Except.ok.inj hrun)
    rw [h.zero]
    exact Answers.ok h.zero_good

theorem factor_follows (h : Follows A good value) (hinner : FollowsAt good value inner inner') :
    FollowsAt good value (parseFactor (treeArith zeroDivision) inner) (parseFactor A inner') := by
  intro s e t hrun
  by_cases hopen : (skipWs s).pos.head? = some 40
  · rw [factor_paren _ _ hopen] at hrun ⊢
    cases hin : inner { skipWs s with pos := (skipWs s).pos.tail } with
    | error fault =>
      rw [hin] at hrun
      cases hrun
    | ok result =>
      obtain ⟨e', u⟩ := result
      rw [hin, ok_bind] at hrun
      obtain ⟨rfl, rfl⟩ := Prod.mk.inj (Except.ok.inj hrun)
      exact (hinner _ _ u hin).bind (fun hgood => Answers.ok hgood) id
  · simp only [parseFactor, if_neg hopen] at hrun ⊢
    split at hrun
    · rename_i hminus
      rw [if_pos hminus]
      exact number_follows h true _ e t hrun
    · rename_i hminus
      rw [if_neg hminus]
      exact number_follows h false _ e t hrun

section Chain
variable {Op : Type} {opOf : UInt8 → Option Op} {apply : Op → Ast → Ast → Except Fault (Ast × Bool)}
  {apply' : Op → V → V → Except Fault (V × Bool)} {node : Op → Ast → Ast → Ast} {goesOn : Op → Ast → Ast → Bool}

/-- The tree only grows in the loop, so a part that is not good spoils it. -/
theorem loop_follows (happly : ∀ op a b, apply op a b = .ok (node op a b, goesOn op a b))
    (happly' : ∀ op a b, good a → good b → Answers (apply' op (value a) (value b)) (good (node op a b))
      (value (node op a b), goesOn op a b))
    (hgood : ∀ {op a b}, good (node op a b) → good a ∧ good b) (hoperand : FollowsAt good value operand operand')
    (fuel : Nat) (a : Ast) (s : Calc) (e : Ast) (t : Calc) (hrun : opLoop opOf apply operand fuel a s = .ok (e, t)) :
    (good e → good a) ∧ (good a → Answers (opLoop opOf apply' operand' fuel (value a) s) (good e) (value e, t)) := by
  induction fuel generalizing a s with
  | zero => cases hrun
  | succ fuel ih =>
    unfold opLoop at hrun ⊢
    dsimp only at hrun ⊢
    cases hop : (skipWs s).pos.head?.bind opOf with
    | none =>
      rw [hop] at hrun
      obtain ⟨rfl, rfl⟩ := Prod.mk.inj (Except.ok.inj hrun)
      exact ⟨id, fun ha => Answers.ok ha⟩
    | some op =>
      rw [hop] at hrun
      dsimp only at hrun ⊢
      cases hin : operand { skipWs s with pos := (skipWs s).pos.tail } with
      | error fault =>
        rw [hin] at hrun
        cases hrun
      | ok result =>
        obtain ⟨b, u⟩ := result
        rw [hin, ok_bind] at hrun
        dsimp only at hrun
        rw [happly, ok_bind] at hrun
        dsimp only at hrun
        have hrest : (good e → good (node op a b)) ∧ (good (node op a b) →
            Answers (if goesOn op a b = true then opLoop opOf apply' operand' fuel (value (node op a b)) u
              else .ok (value (node op a b), { u with error := true })) (good e) (value e, t)) := by
          cases hgo : goesOn op a b with
          | true =>
            rw [hgo] at hrun
            exact ih (node op a b) u hrun
          | false =>
            rw [hgo] at hrun
            obtain ⟨rfl, rfl⟩ := Prod.mk.inj (Except.ok.inj hrun)
            exact ⟨id, fun hnode => Answers.ok hnode⟩
        obtain ⟨hparts, hloop⟩ := hrest
        refine ⟨fun he => (hgood (hparts he)).1, fun ha => ?_⟩
        refine (hoperand _ b u hin).bind (fun hb => ?_) (fun he => (hgood (hparts he)).2)
        exact (happly' op a b ha hb).bind hloop hparts

theorem chain_follows (happly : ∀ op a b, apply op a b = .ok (node op a b, goesOn op a b))
    (happly' : ∀ op a b, good a → good b → Answers (apply' op (value a) (value b)) (good (node op a b))
      (value (node op a b), goesOn op a b))
    (hgood : ∀ {op a b}, good (node op a b) → good a ∧ good b) (hoperand : FollowsAt good value operand operand') :
    FollowsAt good value (parseChain opOf apply operand) (parseChain opOf apply' operand') := by
  intro s e t hrun
  unfold parseChain at hrun ⊢
  cases hin : operand s with
  | error fault =>
    rw [hin] at hrun
    cases hrun
  | ok result =>
    obtain ⟨a, u⟩ := result
    rw [hin, ok_bind] at hrun
    obtain ⟨hparts, hloop⟩ := loop_follows happly happly' hgood hoperand (u.pos.length + 1) a u e t hrun
    exact (hoperand s a u hin).bind hloop hparts

end Chain

theorem expr_follows (h : Follows A good value) (d : Nat) :
    FollowsAt good value (parseExpr (treeArith zeroDivision) d) (parseExpr A d) := by
  induction d with
  | zero =>
    intro s e t hrun
    cases hrun
  | succ d ih =>
    refine chain_follows (add_chain zeroDivision).applied h.add h.add_good ?_
    exact chain_follows (mul_chain zeroDivision).applied h.mul h.mul_good (factor_follows h ih)

end Simulation

/-- The tree a string is read as, whether or not the string is taken in the end. -/
def treeOf (s : List UInt8) : Ast :=
  match parseExpr (treeArith zeroDivision) (s.length + 1) ⟨s, false⟩ with
  | .ok (e, _) => e
  | .error _ => .num 0

/-- An arithmetic that follows the trees comes to the value of the tree, if that is good. -/
theorem eval_follows {N V : Type} {A : Arith N V} {good : Ast → Prop} {value : Ast → V} (h : Follows A good value)
    (s : List UInt8) : ∃ out : Option Ast, evalWith (treeArith zeroDivision) s = .ok out ∧
      (∀ e, out = some e → e = treeOf s) ∧ Answers (evalWith A s) (good (treeOf s)) (out.map value) := by
  obtain ⟨e, t, hrun⟩ := parse_tree zeroDivision s
  have htree : treeOf s = e := by simp only [treeOf, hrun]
  have hanswer := expr_follows h (s.length + 1) ⟨s, false⟩ e t hrun
  refine ⟨_, eval_with_eq hrun, fun e' he => ?_, ?_⟩
  · rw [htree]
    split at he
    · cases he
    · exact (Option.some.inj he).symm
  · rw [htree]
    refine ⟨fun hgood => ?_, fun hno => ?_⟩
    · rw [eval_with_eq (hanswer.1 hgood)]
      congr 1
      split
      · rfl
      · rfl
    · obtain ⟨fault, hfault⟩ := hanswer.2 hno
      exact ⟨fault, by simp only [evalWith, hfault, error_bind]⟩

/-- The digit loop, from what one digit does. -/
theorem digits_answer {A : Arith Int32 Int32} {p : Nat → Prop} (hdown : ∀ {n m}, n ≤ m → p m → p n)
    (hdigit : ∀ n c, isDigit c = true → p n →
      Answers (A.digit (Int32.ofNat n) c) (p (n * 10 + (c.toNat - 48))) (Int32.ofNat (n * 10 + (c.toNat - 48))))
    {n : Nat} (hn : p n) (pos : List UInt8) :
    Answers (readDigits A (Int32.ofNat n) pos) (p (numeralFrom n (pos.takeWhile isDigit)))
      (Int32.ofNat (numeralFrom n (pos.takeWhile isDigit)), pos.dropWhile isDigit) := by
  induction pos generalizing n with
  | nil => exact Answers.ok hn
  | cons c pos ih =>
    unfold readDigits
    cases hc : isDigit c with
    | true =>
      rw [if_pos rfl, List.takeWhile_cons_of_pos hc, List.dropWhile_cons_of_pos hc]
      exact (hdigit n c hc hn).bind ih (hdown (numeral_from_le _ _))
    | false =>
      have hno : ¬ isDigit c = true := by simp [hc]
      rw [if_neg Bool.false_ne_true, List.takeWhile_cons_of_neg hno, List.dropWhile_cons_of_neg hno]
      exact Answers.ok hn

theorem digit_wrap (n d : Nat) : Int32.ofNat n * 10 + Int32.ofNat d = Int32.ofNat (n * 10 + d) := by
  rw [Int32.ofNat_add, Int32.ofNat_mul]
  rfl

theorem apply_mul_eq (op : MulOp) (a b : Int32) :
    Answers (applyMul op a b) (traps op a b = false) (mulWrap op a b, !byZero op b) := by
  cases op with
  | mul => exact Answers.ok rfl
  | div | mod =>
    by_cases hb : b = 0
    · simp [Answers, applyMul, mulWrap, byZero, traps, hb]
    · by_cases htrap : a = Int32.minValue ∧ b = -1
      · simp [Answers, applyMul, traps, htrap]
      · simp [Answers, applyMul, mulWrap, byZero, traps, hb, htrap]

/-- The code computes the 32-bit values of trees, up to the first division that traps. -/
theorem i32_follows : Follows i32Arith (Ast.Free trapDivision) Ast.wrapped where
  zero := rfl
  zero_good := trivial
  number neg pos := by
    have hdigit : ∀ n c, isDigit c = true → True → Answers (i32Arith.digit (Int32.ofNat n) c) True
        (Int32.ofNat (n * 10 + (c.toNat - 48))) := fun n c _ _ =>
      ⟨fun _ => congrArg Except.ok (digit_wrap n _), fun hno => absurd trivial hno⟩
    refine (digits_answer (p := fun _ => True) (fun _ => id) hdigit trivial pos).bind (fun _ => ?_) (fun _ => trivial)
    refine ⟨fun _ => ?_, fun hno => absurd (number_free _ neg _) hno⟩
    cases neg with
    | true => rfl
    | false => rfl
  mul op a b ha hb := by
    obtain ⟨hok, hfault⟩ := apply_mul_eq op a.wrapped b.wrapped
    exact ⟨fun hgood => hok hgood.2.2, fun hno => hfault (fun hquiet => hno ⟨ha, hb, hquiet⟩)⟩
  add op a b ha hb := by
    cases op with
    | add => exact Answers.ok ⟨ha, hb⟩
    | sub => exact Answers.ok ⟨ha, hb⟩
  mul_good h := ⟨h.1, h.2.1⟩
  add_good h := h

/-- The evaluator returns, and accepts exactly the expressions that have a value, with that value. -/
def Evaluates (s : List UInt8) : Prop :=
  ∃ out, calcEval s = .ok out ∧ ∀ x : Int, out.map Int32.toInt = some x ↔ ∃ e, Expression s e ∧ e.value = some x

/-- Where all numbers of an expression fit, the evaluator is right if and only if it comes to no
division that traps. -/
theorem calc_eval_iff (s : List UInt8) (hfits : ∀ e, Expression s e → e.Fits) :
    Evaluates s ↔ (treeOf s).Free trapDivision := by
  obtain ⟨out, htree, -, hok, hfault⟩ := eval_follows i32_follows s
  constructor
  · rintro ⟨v, hrun, -⟩
    by_contra htrap
    obtain ⟨f, hf⟩ := hfault htrap
    cases hrun.symm.trans hf
  · intro hquiet
    refine ⟨_, hok hquiet, fun x => ⟨fun hx => ?_, fun ⟨e, hexpr, hx⟩ => ?_⟩⟩
    · obtain ⟨v, hv, rfl⟩ := Option.map_eq_some_iff.mp hx
      obtain ⟨e, rfl, rfl⟩ := Option.map_eq_some_iff.mp hv
      obtain ⟨hexpr, hfree⟩ := (eval_tree_iff _ s e).mp htree
      rcases value_cases (hfits e hexpr) with ⟨-, hvalue⟩ | ⟨hnot, -⟩
      · exact ⟨e, hexpr, hvalue⟩
      · exact absurd hfree hnot
    · rcases value_cases (hfits e hexpr) with ⟨hfree, hvalue⟩ | ⟨-, hnone⟩
      · obtain rfl := Except.ok.inj (htree.symm.trans ((eval_tree_iff _ s e).mpr ⟨hexpr, hfree⟩))
        exact hvalue.symm.trans hx
      · cases hnone.symm.trans hx

/-- Blanks, parentheses, a sign, and a division that truncates. -/
theorem calc_eval_product : Evaluates [45, 55, 47, 40, 51, 45, 49, 41, 32] :=
  (calc_eval_iff _ (fun _ h => short_fits (by decide) h)).mpr (by decide)

example : (calcEval [45, 55, 47, 40, 51, 45, 49, 41, 32]).toOption.join = some (-3) := by decide

/-- `(0-2147483647-1)%(0-1)`: all numbers fit, and the remainder is 0, but it traps. -/
def leastByMinusOne : List UInt8 :=
  [40, 48, 45, 50, 49, 52, 55, 52, 56, 51, 54, 52, 55, 45, 49, 41, 37, 40, 48, 45, 49, 41]

def leastByMinusOneTree : Ast :=
  .mul .mod (.add .sub (.add .sub (.num 0) (.num 2147483647)) (.num 1)) (.add .sub (.num 0) (.num 1))

theorem remainder_traps : (∀ e, Expression leastByMinusOne e → e.Fits) ∧ ¬ Evaluates leastByMinusOne := by
  have htree : evalWith (treeArith fun _ _ _ => false) leastByMinusOne = .ok (some leastByMinusOneTree) := by
    decide
  have hfits : leastByMinusOneTree.Fits := by
    simp [leastByMinusOneTree, Ast.Fits, Ast.value, mulValue, addValue, FitsI32]
  have hrun : calcEval leastByMinusOne = .error .overflow := by decide
  constructor
  · intro e hexpr
    rwa [expression_unique hexpr ((eval_tree_iff _ _ _).mp htree).1]
  · rintro ⟨out, hout, -⟩
    cases hrun.symm.trans hout

end BaSic.Proofs.CalcEval
