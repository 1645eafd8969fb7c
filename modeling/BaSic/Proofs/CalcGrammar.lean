import BaSic.Kernel.Calc

namespace BaSic.Proofs.CalcGrammar
open Kernel

/-- What an expression says, without its parentheses. -/
inductive Ast where
  | num (n : Nat)
  | neg (n : Nat)
  | mul (op : MulOp) (a b : Ast)
  | add (op : AddOp) (a b : Ast)
  deriving DecidableEq

/-- Division truncates; there is no value when the divisor is 0. -/
def mulValue : MulOp → Int → Int → Option Int
  | .mul, a, b => some (a * b)
  | .div, a, b => if b = 0 then none else some (a.tdiv b)
  | .mod, a, b => if b = 0 then none else some (a.tmod b)

def addValue : AddOp → Int → Int → Int
  | .add, a, b => a + b
  | .sub, a, b => a - b

def Ast.value : Ast → Option Int
  | .num n => some n
  | .neg n => some (-n)
  | .mul op a b => a.value.bind (fun va => b.value.bind (mulValue op va))
  | .add op a b => a.value.bind (fun va => b.value.map (addValue op va))

/-- The values of an `i32`. -/
def FitsI32 (v : Int) : Prop := -2 ^ 31 ≤ v ∧ v < 2 ^ 31

/-- Every number of the expression and every intermediate result is an `i32`. -/
def Ast.Fits : Ast → Prop
  | .num n => FitsI32 n
  | .neg n => FitsI32 n
  | .mul op a b => a.Fits ∧ b.Fits ∧ ∀ v, (Ast.mul op a b).value = some v → FitsI32 v
  | .add op a b => a.Fits ∧ b.Fits ∧ ∀ v, (Ast.add op a b).value = some v → FitsI32 v

/-- The same in 32-bit arithmetic, where the quotient by 0 counts as 0. -/
def mulWrap : MulOp → Int32 → Int32 → Int32
  | .mul, a, b => a * b
  | .div, a, b => if b = 0 then 0 else a / b
  | .mod, a, b => if b = 0 then 0 else a % b

def addWrap : AddOp → Int32 → Int32 → Int32
  | .add, a, b => a + b
  | .sub, a, b => a - b

def Ast.wrapped : Ast → Int32
  | .num n => Int32.ofNat n
  | .neg n => -Int32.ofNat n
  | .mul op a b => mulWrap op a.wrapped b.wrapped
  | .add op a b => addWrap op a.wrapped b.wrapped

def byZero : MulOp → Int32 → Bool
  | .mul, _ => false
  | .div, b | .mod, b => b = 0

/-- A kind of products, quotients and remainders. -/
abbrev Kind := MulOp → Ast → Ast → Bool

/-- There is none of the kind. -/
def Ast.Free (kind : Kind) : Ast → Prop
  | .num _ | .neg _ => True
  | .mul op a b => a.Free kind ∧ b.Free kind ∧ kind op a b = false
  | .add _ a b => a.Free kind ∧ b.Free kind

instance decidableFree (kind : Kind) : (e : Ast) → Decidable (e.Free kind)
  | .num _ | .neg _ => inferInstanceAs (Decidable True)
  | .mul _ a b =>
    have := decidableFree kind a
    have := decidableFree kind b
    inferInstanceAs (Decidable (_ ∧ _ ∧ _))
  | .add _ a b =>
    have := decidableFree kind a
    have := decidableFree kind b
    inferInstanceAs (Decidable (_ ∧ _))

def zeroDivision (op : MulOp) (_ b : Ast) : Bool := byZero op b.wrapped

/-- The divisions whose quotient is no `i32`. -/
def traps : MulOp → Int32 → Int32 → Bool
  | .mul, _, _ => false
  | .div, a, b | .mod, a, b => a = Int32.minValue ∧ b = -1

def trapDivision (op : MulOp) (a b : Ast) : Bool := traps op a.wrapped b.wrapped

def MulOp.char : MulOp → UInt8
  | .mul => 42
  | .div => 47
  | .mod => 37

def AddOp.char : AddOp → UInt8
  | .add => 43
  | .sub => 45

/-- `number = [0-9]+` -/
def Numeral (ds : List UInt8) : Prop := ds ≠ [] ∧ ∀ c ∈ ds, isDigit c = true

def numeralFrom (n : Nat) (ds : List UInt8) : Nat := ds.foldl (fun n c => n * 10 + (c.toNat - 48)) n

def Blanks (w : List UInt8) : Prop := ∀ c ∈ w, isBlank c = true

inductive Nonterminal where
  | factor
  | term
  | expr

/-- The grammar of the header comment; every token may have blanks before it. Each round of
`{ .. }` takes one more operand to what has been read. -/
inductive Derives : Nonterminal → List UInt8 → Ast → Prop where
  | number {w ds : List UInt8} (hw : Blanks w) (hds : Numeral ds) :
      Derives .factor (w ++ ds) (.num (numeralFrom 0 ds))
  | minus {w w' ds : List UInt8} (hw : Blanks w) (hw' : Blanks w') (hds : Numeral ds) :
      Derives .factor (w ++ 45 :: (w' ++ ds)) (.neg (numeralFrom 0 ds))
  | paren {w w' s : List UInt8} {e : Ast} (hw : Blanks w) (hs : Derives .expr s e) (hw' : Blanks w') :
      Derives .factor (w ++ 40 :: (s ++ (w' ++ [41]))) e
  | factor {s : List UInt8} {e : Ast} (hs : Derives .factor s e) : Derives .term s e
  | mul {w s s' : List UInt8} {a b : Ast} {op : MulOp} (hs : Derives .term s a) (hw : Blanks w)
      (hs' : Derives .factor s' b) : Derives .term (s ++ (w ++ MulOp.char op :: s')) (.mul op a b)
  | term {s : List UInt8} {e : Ast} (hs : Derives .term s e) : Derives .expr s e
  | add {w s s' : List UInt8} {a b : Ast} {op : AddOp} (hs : Derives .expr s a) (hw : Blanks w)
      (hs' : Derives .term s' b) : Derives .expr (s ++ (w ++ AddOp.char op :: s')) (.add op a b)

/-- The whole string is an expression, perhaps with blanks after it. -/
def Expression (s : List UInt8) (e : Ast) : Prop := ∃ text w, s = text ++ w ∧ Blanks w ∧ Derives .expr text e

variable {c : UInt8} {w ds : List UInt8} {n : Nat} {a b v : Int32} {x y : Int} {level : Nonterminal}
  {text : List UInt8} {e : Ast}

theorem mul_op_iff {op : MulOp} : mulOp c = some op ↔ c = MulOp.char op := by
  unfold mulOp
  cases op
  all_goals unfold MulOp.char
  all_goals grind

theorem add_op_iff {op : AddOp} : addOp c = some op ↔ c = AddOp.char op := by
  unfold addOp
  cases op
  all_goals unfold AddOp.char
  all_goals grind

theorem wrap_of_fits (h : FitsI32 x) : x.bmod 4294967296 = x := by
  obtain ⟨hlow, hhigh⟩ := h
  exact Int.bmod_eq_of_le (by omega) (by omega)

theorem to_int_eq_zero : a.toInt = 0 ↔ a = 0 := by
  rw [← Int32.toInt_zero, Int32.toInt_inj]

/-- While the exact value is an `i32`, the wrapping operation yields it. -/
theorem mul_wrap_value {op : MulOp} (hfits : ∀ x, mulValue op a.toInt b.toInt = some x → FitsI32 x) :
    mulValue op a.toInt b.toInt = if byZero op b then none else some (mulWrap op a b).toInt := by
  have hzero : b.toInt = 0 ↔ b = 0 := to_int_eq_zero
  cases op with
  | mul =>
    have h := hfits (a.toInt * b.toInt) rfl
    simp [mulValue, mulWrap, byZero, Int32.toInt_mul, wrap_of_fits h]
  | div =>
    by_cases hb : b = 0
    · simp [mulValue, byZero, hb]
    · have h := hfits (a.toInt.tdiv b.toInt) (if_neg (mt hzero.mp hb))
      simp [mulValue, mulWrap, byZero, hb, hzero, Int32.toInt_div, wrap_of_fits h]
  | mod =>
    by_cases hb : b = 0
    · simp [mulValue, byZero, hb]
    · simp [mulValue, mulWrap, byZero, hb, hzero]

theorem add_wrap_value {op : AddOp} (hfits : FitsI32 (addValue op a.toInt b.toInt)) :
    addValue op a.toInt b.toInt = (addWrap op a b).toInt := by
  cases op with
  | add =>
    have h : FitsI32 (a.toInt + b.toInt) := hfits
    simp [addValue, addWrap, Int32.toInt_add, wrap_of_fits h]
  | sub =>
    have h : FitsI32 (a.toInt - b.toInt) := hfits
    simp [addValue, addWrap, Int32.toInt_sub, wrap_of_fits h]

theorem number_wrap_value {n : Nat} (h : FitsI32 n) :
    (Int32.ofNat n).toInt = n ∧ (-Int32.ofNat n).toInt = -(n : Int) := by
  have hofNat : (Int32.ofNat n).toInt = n := Int32.toInt_ofNat_of_lt (by exact_mod_cast h.2)
  have hneg : FitsI32 (-(n : Int)) := by
    unfold FitsI32 at *
    omega
  exact ⟨hofNat, by simp [Int32.toInt_neg, hofNat, wrap_of_fits hneg]⟩

theorem numeral_from_le (n : Nat) (ds : List UInt8) : n ≤ numeralFrom n ds := by
  induction ds generalizing n with
  | nil => exact Nat.le_refl _
  | cons c ds ih =>
    have hstep : n ≤ n * 10 + (c.toNat - 48) := by omega
    exact hstep.trans (ih _)

/-- An expression whose numbers fit has a value exactly when it divides by no 0, and 32-bit
arithmetic yields it. -/
theorem value_cases {e : Ast} (h : e.Fits) : (e.Free zeroDivision ∧ e.value = some e.wrapped.toInt) ∨
    (¬ e.Free zeroDivision ∧ e.value = none) := by
  induction e with
  | num n => exact Or.inl ⟨trivial, congrArg some (number_wrap_value h).1.symm⟩
  | neg n => exact Or.inl ⟨trivial, congrArg some (number_wrap_value h).2.symm⟩
  | mul op a b iha ihb =>
    obtain ⟨ha, hb, hfits⟩ := h
    rcases iha ha with ⟨hfree, hvalue⟩ | ⟨hnot, hnone⟩
    · rcases ihb hb with ⟨hfree', hvalue'⟩ | ⟨hnot', hnone'⟩
      · have hboth : (Ast.mul op a b).value = mulValue op a.wrapped.toInt b.wrapped.toInt := by
          simp [Ast.value, hvalue, hvalue']
        rw [hboth] at hfits ⊢
        rw [mul_wrap_value hfits]
        cases hzero : byZero op b.wrapped with
        | false => exact Or.inl ⟨⟨hfree, hfree', hzero⟩, by simp [Ast.wrapped]⟩
        | true => exact Or.inr ⟨fun hall => Bool.noConfusion (hzero.symm.trans hall.2.2), by simp⟩
      · exact Or.inr ⟨fun hall => hnot' hall.2.1, by simp [Ast.value, hvalue, hnone']⟩
    · exact Or.inr ⟨fun hall => hnot hall.1, by simp [Ast.value, hnone]⟩
  | add op a b iha ihb =>
    obtain ⟨ha, hb, hfits⟩ := h
    rcases iha ha with ⟨hfree, hvalue⟩ | ⟨hnot, hnone⟩
    · rcases ihb hb with ⟨hfree', hvalue'⟩ | ⟨hnot', hnone'⟩
      · have hboth : (Ast.add op a b).value = some (addValue op a.wrapped.toInt b.wrapped.toInt) := by
          simp [Ast.value, hvalue, hvalue']
        rw [hboth, add_wrap_value (hfits _ hboth)]
        exact Or.inl ⟨⟨hfree, hfree'⟩, rfl⟩
      · exact Or.inr ⟨fun hall => hnot' hall.2, by simp [Ast.value, hvalue, hnone']⟩
    · exact Or.inr ⟨fun hall => hnot hall.1, by simp [Ast.value, hnone]⟩

theorem mul_operands {op : MulOp} {a b : Ast} {x : Int} (h : (Ast.mul op a b).value = some x) :
    ∃ va vb, a.value = some va ∧ b.value = some vb := by
  unfold Ast.value at h
  obtain ⟨va, ha, h⟩ := Option.bind_eq_some_iff.mp h
  obtain ⟨vb, hb, -⟩ := Option.bind_eq_some_iff.mp h
  exact ⟨va, vb, ha, hb⟩

theorem add_operands {op : AddOp} {a b : Ast} {x : Int} (h : (Ast.add op a b).value = some x) :
    ∃ va vb, a.value = some va ∧ b.value = some vb := by
  unfold Ast.value at h
  obtain ⟨va, ha, h⟩ := Option.bind_eq_some_iff.mp h
  obtain ⟨vb, hb, -⟩ := Option.map_eq_some_iff.mp h
  exact ⟨va, vb, ha, hb⟩

theorem numeral_lt (n : Nat) {ds : List UInt8} (hds : ∀ c ∈ ds, isDigit c = true) :
    numeralFrom n ds < (n + 1) * 10 ^ ds.length := by
  induction ds generalizing n with
  | nil => exact (Nat.lt_succ_self n).trans_eq (Nat.mul_one _).symm
  | cons c ds ih =>
    obtain ⟨hc, hds⟩ := List.forall_mem_cons.mp hds
    have hdigit : c.toNat ≤ 57 := by
      unfold isDigit at hc
      exact UInt8.le_iff_toNat_le.mp (of_decide_eq_true hc).2
    have hstep : n * 10 + (c.toNat - 48) + 1 ≤ (n + 1) * 10 := by omega
    calc numeralFrom n (c :: ds) < (n * 10 + (c.toNat - 48) + 1) * 10 ^ ds.length := ih _ hds
      _ ≤ (n + 1) * 10 * 10 ^ ds.length := Nat.mul_le_mul_right _ hstep
      _ = (n + 1) * 10 ^ (c :: ds).length := by rw [List.length_cons, pow_succ]; ring

theorem pow_ten_le {a b : Nat} (h : a ≤ b) : 10 ^ a ≤ 10 ^ b := Nat.pow_le_pow_right (by decide) h

theorem mul_value_lt {op : MulOp} {x y z : Int} {m k : Nat} (hx : x.natAbs < 10 ^ m) (hy : y.natAbs < 10 ^ k)
    (hz : mulValue op x y = some z) : z.natAbs < 10 ^ (m + k) := by
  have hm : 10 ^ m ≤ 10 ^ (m + k) := pow_ten_le (Nat.le_add_right _ _)
  unfold mulValue at hz
  cases op with
  | mul =>
    obtain rfl := Option.some.inj hz
    rw [Int.natAbs_mul, pow_add]
    exact Nat.mul_lt_mul'' hx hy
  | div =>
    dsimp only at hz
    split_ifs at hz
    obtain rfl := Option.some.inj hz
    rw [Int.natAbs_tdiv]
    exact (Nat.div_le_self _ _).trans_lt (hx.trans_le hm)
  | mod =>
    dsimp only at hz
    split_ifs at hz
    obtain rfl := Option.some.inj hz
    rw [Int.natAbs_tmod]
    exact (Nat.mod_le _ _).trans_lt (hx.trans_le hm)

theorem add_value_lt {op : AddOp} {x y : Int} {m k : Nat} (hx : x.natAbs < 10 ^ m) (hy : y.natAbs < 10 ^ k) :
    (addValue op x y).natAbs < 10 ^ (m + k + 1) := by
  have hm : 10 ^ m ≤ 10 ^ (m + k) := pow_ten_le (Nat.le_add_right _ _)
  have hk : 10 ^ k ≤ 10 ^ (m + k) := pow_ten_le (Nat.le_add_left _ _)
  have hle : (addValue op x y).natAbs ≤ x.natAbs + y.natAbs := by
    unfold addValue
    cases op with
    | add => exact Int.natAbs_add_le x y
    | sub => exact Int.natAbs_sub_le x y
  rw [pow_succ]
  omega

/-- A value is smaller than a power of ten with one factor for every character. -/
theorem value_lt (h : Derives level text e) {x : Int} (hx : e.value = some x) : x.natAbs < 10 ^ text.length := by
  induction h generalizing x with
  | @number w ds hw hds =>
    obtain rfl := Option.some.inj hx
    have hlt := numeral_lt 0 hds.2
    rw [zero_add, one_mul] at hlt
    refine hlt.trans_le (pow_ten_le ?_)
    simp
  | @minus w w' ds hw hw' hds =>
    obtain rfl := Option.some.inj hx
    have hlt := numeral_lt 0 hds.2
    rw [zero_add, one_mul] at hlt
    rw [Int.natAbs_neg]
    refine hlt.trans_le (pow_ten_le ?_)
    simp only [List.length_append, List.length_cons]
    omega
  | paren hw _ hw' ih =>
    refine (ih hx).trans_le (pow_ten_le ?_)
    simp only [List.length_append, List.length_cons]
    omega
  | factor _ ih => exact ih hx
  | mul _ hw _ iha ihb =>
    obtain ⟨va, vb, ha, hb⟩ := mul_operands hx
    unfold Ast.value at hx
    rw [ha, hb] at hx
    refine (mul_value_lt (iha ha) (ihb hb) hx).trans_le (pow_ten_le ?_)
    simp only [List.length_append, List.length_cons]
    omega
  | term _ ih => exact ih hx
  | add _ hw _ iha ihb =>
    obtain ⟨va, vb, ha, hb⟩ := add_operands hx
    unfold Ast.value at hx
    rw [ha, hb] at hx
    obtain rfl := Option.some.inj hx
    refine (add_value_lt (iha ha) (ihb hb)).trans_le (pow_ten_le ?_)
    simp only [List.length_append, List.length_cons]
    omega

theorem fits_of_lt {x : Int} {m : Nat} (hx : x.natAbs < 10 ^ m) (hm : m ≤ 9) : FitsI32 x := by
  have hle := hx.trans_le (pow_ten_le hm)
  unfold FitsI32
  omega

/-- An expression of at most nine characters has no room for a number that is no `i32`. -/
theorem derives_fits (h : Derives level text e) (hs : text.length ≤ 9) : e.Fits := by
  induction h with
  | number hw hds => exact fits_of_lt (value_lt (.number hw hds) rfl) hs
  | minus hw hw' hds =>
    have hlt := value_lt (.minus hw hw' hds) rfl
    rw [Int.natAbs_neg] at hlt
    exact fits_of_lt hlt hs
  | paren hw _ hw' ih =>
    refine ih ?_
    simp only [List.length_append, List.length_cons] at hs
    omega
  | factor _ ih => exact ih hs
  | mul ha hw hb iha ihb =>
    have hlen := hs
    simp only [List.length_append, List.length_cons] at hlen
    exact ⟨iha (by omega), ihb (by omega), fun x hx => fits_of_lt (value_lt (.mul ha hw hb) hx) hs⟩
  | term _ ih => exact ih hs
  | add ha hw hb iha ihb =>
    have hlen := hs
    simp only [List.length_append, List.length_cons] at hlen
    exact ⟨iha (by omega), ihb (by omega), fun x hx => fits_of_lt (value_lt (.add ha hw hb) hx) hs⟩

theorem short_fits {s : List UInt8} (hs : s.length ≤ 9) (h : Expression s e) : e.Fits := by
  obtain ⟨text, w, rfl, -, hderives⟩ := h
  rw [List.length_append] at hs
  exact derives_fits hderives (by omega)

end BaSic.Proofs.CalcGrammar
