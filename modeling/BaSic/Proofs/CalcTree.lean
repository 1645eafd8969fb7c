import BaSic.Proofs.CalcGrammar

namespace BaSic.Proofs.CalcTree
open Kernel CalcGrammar

/-- The value of a number with or without a sign. -/
def signed (neg : Bool) (n : Nat) : Ast := if neg then .neg n else .num n

/-- The arithmetic that keeps what is read as a tree; an operation of the kind ends its term. -/
def treeArith (kind : Kind) : Arith Nat Ast where
  start := 0
  digit n c := .ok (n * 10 + (c.toNat - 48))
  number neg n := .ok (signed neg n)
  zero := .num 0
  mul op a b := .ok (.mul op a b, !kind op a b)
  add op a b := .ok (.add op a b, true)

variable {kind : Kind}

/-- The part of `pos` before `rest` is an expression of the level and blanks. -/
def Reads (kind : Kind) (level : Nonterminal) (pos rest : List UInt8) (e : Ast) : Prop :=
  ∃ text w, pos = text ++ (w ++ rest) ∧ Blanks w ∧ Derives level text e ∧ e.Free kind

/-- On a string of at most `n` characters the parser returns, and goes past an expression of
the level unless it sets the error flag. -/
def Sound (kind : Kind) (level : Nonterminal) (parse : Calc → Except Fault (Ast × Calc)) (n : Nat) : Prop :=
  ∀ s : Calc, s.pos.length ≤ n → ∃ e t, parse s = .ok (e, t) ∧ t.pos.length ≤ s.pos.length ∧
    (t.error = false → s.error = false ∧ Reads kind level s.pos t.pos e)

/-- What the operators of a level are, in the code and in the grammar. -/
structure IsChain (kind : Kind) {Op : Type} (opOf : UInt8 → Option Op)
    (apply : Op → Ast → Ast → Except Fault (Ast × Bool)) (char : Op → UInt8) (node : Op → Ast → Ast → Ast)
    (goesOn : Op → Ast → Ast → Bool) (lower upper : Nonterminal) : Prop where
  op_iff : ∀ {c : UInt8} {op : Op}, opOf c = some op ↔ c = char op
  single : ∀ {s : List UInt8} {e : Ast}, Derives lower s e → Derives upper s e
  more : ∀ {s s' w : List UInt8} {a b : Ast} {op : Op}, Derives upper s a → Blanks w → Derives lower s' b →
    Derives upper (s ++ (w ++ char op :: s')) (node op a b)
  applied : ∀ (op : Op) (a b : Ast), apply op a b = .ok (node op a b, goesOn op a b)
  free : ∀ {op : Op} {a b : Ast}, a.Free kind → b.Free kind → goesOn op a b = true → (node op a b).Free kind

theorem mul_chain (kind : Kind) : IsChain kind mulOp (treeArith kind).mul MulOp.char Ast.mul (fun op a b => !kind op a b) .factor .term where
  op_iff := mul_op_iff
  single := Derives.factor
  more := Derives.mul
  applied _ _ _ := rfl
  free ha hb hgo := ⟨ha, hb, by simpa using hgo⟩

theorem add_chain (kind : Kind) : IsChain kind addOp (treeArith kind).add AddOp.char Ast.add (fun _ _ _ => true) .term .expr where
  op_iff := add_op_iff
  single := Derives.term
  more := Derives.add
  applied _ _ _ := rfl
  free ha hb _ := ⟨ha, hb⟩

variable {s t : Calc} {e a b : Ast} {n d fuel : Nat} {pos r text : List UInt8} {level : Nonterminal}
  {inner operand : Calc → Except Fault (Ast × Calc)}

theorem skip_split (s : Calc) : ∃ w, Blanks w ∧ s.pos = w ++ (skipWs s).pos :=
  ⟨s.pos.takeWhile isBlank, fun _ hc => List.mem_takeWhile_imp hc, List.takeWhile_append_dropWhile.symm⟩

theorem blanks_append {w w' : List UInt8} (hw : Blanks w) (hw' : Blanks w') : Blanks (w ++ w') :=
  List.forall_mem_append.mpr ⟨hw, hw'⟩

theorem blanks_nil : Blanks [] := fun _ hc => absurd hc List.not_mem_nil

/-- The digit loop takes all digits there are. -/
theorem read_digits_eq (n : Nat) (pos : List UInt8) : readDigits (treeArith kind) n pos =
    .ok (numeralFrom n (pos.takeWhile isDigit), pos.dropWhile isDigit) := by
  induction pos generalizing n with
  | nil => rfl
  | cons c pos ih =>
    cases hc : isDigit c with
    | true => simpa [readDigits, hc, treeArith, numeralFrom] using ih (n * 10 + (c.toNat - 48))
    | false => simp [readDigits, hc, numeralFrom]

/-- A number goes up to the first character that is no digit. -/
theorem number_read (neg : Bool) (hhead : s.pos.head?.any isDigit = true) : parseNumber (treeArith kind) neg s =
    .ok (signed neg (numeralFrom 0 (s.pos.takeWhile isDigit)), { s with pos := s.pos.dropWhile isDigit }) := by
  have hdigits : readDigits (treeArith kind) (treeArith kind).start s.pos = _ := read_digits_eq 0 s.pos
  simp only [parseNumber, hhead, hdigits, ok_bind, Bool.not_true, Bool.false_eq_true, if_false]
  rfl

theorem number_free (kind : Kind) (neg : Bool) (n : Nat) : (signed neg n).Free kind := by
  cases neg with
  | true => trivial
  | false => trivial

theorem number_sound (kind : Kind) (neg : Bool) (s : Calc) : ∃ e t,
    parseNumber (treeArith kind) neg s = .ok (e, t) ∧ t.pos.length ≤ s.pos.length ∧ (t.error = false → s.error = false ∧
      ∃ ds, Numeral ds ∧ s.pos = ds ++ t.pos ∧ e = signed neg (numeralFrom 0 ds)) := by
  by_cases hhead : s.pos.head?.any isDigit = true
  · refine ⟨_, _, number_read neg hhead, List.length_dropWhile_le _ _, fun herror => ⟨herror, ?_⟩⟩
    refine ⟨s.pos.takeWhile isDigit, ⟨?_, fun c hc => List.mem_takeWhile_imp hc⟩, ?_, rfl⟩
    · obtain ⟨c, hc, hdigit⟩ := (Option.any_eq_true _ _).mp hhead
      obtain ⟨pos, hcons⟩ := List.head?_eq_some_iff.mp hc
      rw [hcons, List.takeWhile_cons_of_pos hdigit]
      exact List.cons_ne_nil _ _
    · exact List.takeWhile_append_dropWhile.symm
  · refine ⟨.num 0, { s with error := true }, ?_, Nat.le_refl _, fun herror => by cases herror⟩
    unfold parseNumber
    rw [if_pos (by simpa using hhead)]
    rfl

/-- After the inner expression, a closing parenthesis is passed, or else there is an error. -/
def closed (s : Calc) : Calc :=
  if (skipWs s).pos.head? = some 41 then { skipWs s with pos := (skipWs s).pos.tail }
  else { skipWs s with error := true }

theorem factor_paren {N V : Type} (A : Arith N V) (parse : Calc → Except Fault (V × Calc))
    (hopen : (skipWs s).pos.head? = some 40) : parseFactor A parse s =
      (parse { skipWs s with pos := (skipWs s).pos.tail } >>= fun r => .ok (r.1, closed r.2)) := by
  unfold parseFactor closed
  simp only [if_pos hopen]
  congr 1
  funext r
  split
  · rfl
  · rfl

theorem closed_split (h : (closed s).error = false) :
    s.error = false ∧ ∃ w, Blanks w ∧ s.pos = w ++ 41 :: (closed s).pos := by
  unfold closed at h ⊢
  split at h
  · rename_i hclose
    obtain ⟨w, hw, hpos⟩ := skip_split s
    obtain ⟨rest, hrest⟩ := List.head?_eq_some_iff.mp hclose
    rw [if_pos hclose, hpos]
    exact ⟨h, w, hw, by simp [hrest]⟩
  · cases h

theorem skip_length (s : Calc) : (skipWs s).pos.length ≤ s.pos.length := List.length_dropWhile_le _ _

theorem closed_length (s : Calc) : (closed s).pos.length ≤ s.pos.length := by
  have hskip := skip_length s
  have htail : (skipWs s).pos.tail.length ≤ (skipWs s).pos.length := by simp
  unfold closed
  split
  · exact Nat.le_trans htail hskip
  · exact hskip

theorem factor_sound (hinner : Sound kind .expr inner n) :
    Sound kind .factor (parseFactor (treeArith kind) inner) (n + 1) := by
  intro s hs
  obtain ⟨w, hw, hpos⟩ := skip_split s
  have hlen := skip_length s
  by_cases hopen : (skipWs s).pos.head? = some 40
  · rw [factor_paren _ _ hopen]
    obtain ⟨pos, hcons⟩ := List.head?_eq_some_iff.mp hopen
    rw [hcons, List.length_cons] at hlen
    rw [hcons] at hpos ⊢
    obtain ⟨e, t, hrun, hle, hread⟩ := hinner { skipWs s with pos := pos } (show pos.length ≤ n by omega)
    have hclose := closed_length t
    rw [List.tail_cons, hrun, ok_bind]
    refine ⟨e, closed t, rfl, by dsimp only at hle; omega, fun hnone => ?_⟩
    obtain ⟨hinside, w', hw', hpos'⟩ := closed_split hnone
    obtain ⟨hbefore, text, w'', htext, hw'', hderives, hfree⟩ := hread hinside
    refine ⟨hbefore, _, [], ?_, blanks_nil, .paren hw hderives (blanks_append hw'' hw'), hfree⟩
    dsimp only at htext
    rw [hpos, htext, hpos']
    simp
  · simp only [parseFactor, if_neg hopen]
    by_cases hminus : (skipWs s).pos.head? = some 45
    · rw [if_pos hminus]
      obtain ⟨pos, hcons⟩ := List.head?_eq_some_iff.mp hminus
      rw [hcons, List.length_cons] at hlen
      rw [hcons] at hpos ⊢
      obtain ⟨w', hw', hpos'⟩ := skip_split { skipWs s with pos := pos }
      have hlen' := skip_length { skipWs s with pos := pos }
      obtain ⟨e, t, hrun, hle, hread⟩ := number_sound kind true (skipWs { skipWs s with pos := pos })
      refine ⟨e, t, hrun, hle.trans (hlen'.trans (show pos.length ≤ s.pos.length by omega)), fun hnone => ?_⟩
      obtain ⟨hbefore, ds, hds, hsplit, rfl⟩ := hread hnone
      refine ⟨hbefore, _, [], ?_, blanks_nil, .minus hw hw' hds, number_free kind true _⟩
      have hafter : pos = _ := hpos'.trans (congrArg (w' ++ ·) hsplit)
      rw [hpos]
      simpa using hafter
    · rw [if_neg hminus]
      obtain ⟨e, t, hrun, hle, hread⟩ := number_sound kind false (skipWs s)
      refine ⟨e, t, hrun, Nat.le_trans hle hlen, fun hnone => ?_⟩
      obtain ⟨hbefore, ds, hds, hsplit, rfl⟩ := hread hnone
      refine ⟨hbefore, _, [], ?_, blanks_nil, .number hw hds, number_free kind false _⟩
      rw [hpos]
      simpa using hsplit

section Chain
variable {Op : Type} {opOf : UInt8 → Option Op} {apply : Op → Ast → Ast → Except Fault (Ast × Bool)}
  {char : Op → UInt8} {node : Op → Ast → Ast → Ast} {goesOn : Op → Ast → Ast → Bool} {lower upper : Nonterminal}

/-- What a round of the loop has before it: the operands read so far, and blanks. -/
theorem loop_sound (hc : IsChain kind opOf apply char node goesOn lower upper) (hoperand : Sound kind lower operand n)
    (fuel : Nat) (a : Ast) (s : Calc) (hfuel : s.pos.length < fuel) (hn : s.pos.length ≤ n) :
    ∃ e t, opLoop opOf apply operand fuel a s = .ok (e, t) ∧ t.pos.length ≤ s.pos.length ∧
      (t.error = false → s.error = false ∧ ∀ text w, Blanks w → Derives upper text a → a.Free kind →
        Reads kind upper (text ++ (w ++ s.pos)) t.pos e) := by
  induction fuel generalizing a s with
  | zero => exact absurd hfuel (Nat.not_lt_zero _)
  | succ fuel ih =>
    obtain ⟨w', hw', hpos⟩ := skip_split s
    have hlen := congrArg List.length hpos
    rw [List.length_append] at hlen
    have herror : (skipWs s).error = s.error := rfl
    unfold opLoop
    dsimp only
    generalize skipWs s = u at *
    obtain ⟨pos, error⟩ := u
    dsimp only at herror hpos hlen ⊢
    subst herror
    cases hop : pos.head?.bind opOf with
    | none =>
      refine ⟨a, ⟨pos, s.error⟩, rfl, by dsimp only; omega, fun hnone => ⟨hnone, fun text w hw htext hfree => ?_⟩⟩
      refine ⟨text, w ++ w', ?_, blanks_append hw hw', htext, hfree⟩
      rw [hpos]
      simp
    | some op =>
      obtain ⟨c, hhead, hop⟩ := Option.bind_eq_some_iff.mp hop
      obtain rfl := hc.op_iff.mp hop
      obtain ⟨pos, rfl⟩ := List.head?_eq_some_iff.mp hhead
      rw [List.length_cons] at hlen
      dsimp only [List.tail_cons]
      obtain ⟨b, t, hrun, hle, hread⟩ := hoperand ⟨pos, s.error⟩ (by dsimp only; omega)
      dsimp only at hle hread
      rw [hrun, ok_bind]
      dsimp only
      rw [hc.applied, ok_bind]
      dsimp only
      cases hgo : goesOn op a b with
      | false => exact ⟨_, _, rfl, by dsimp only; omega, fun hnone => by cases hnone⟩
      | true =>
        obtain ⟨e, t', hrest, hle', hread'⟩ := ih (node op a b) t (by omega) (by omega)
        refine ⟨e, t', hrest, by omega, fun hnone => ?_⟩
        obtain ⟨hmiddle, hmore⟩ := hread' hnone
        obtain ⟨hbefore, text', w'', hpos', hw'', hderives, hfree'⟩ := hread hmiddle
        refine ⟨hbefore, fun text w hw htext hfree => ?_⟩
        have hreads := hmore _ w'' hw'' (hc.more htext (blanks_append hw hw') hderives) (hc.free hfree hfree' hgo)
        rw [hpos, hpos']
        simpa using hreads

theorem chain_sound (hc : IsChain kind opOf apply char node goesOn lower upper)
    (hoperand : Sound kind lower operand n) : Sound kind upper (parseChain opOf apply operand) n := by
  intro s hs
  obtain ⟨a, t, hrun, hle, hread⟩ := hoperand s hs
  obtain ⟨e, t', hrest, hle', hread'⟩ :=
    loop_sound hc hoperand (t.pos.length + 1) a t (Nat.lt_succ_self _) (by omega)
  unfold parseChain
  rw [hrun, ok_bind]
  refine ⟨e, t', hrest, by omega, fun hnone => ?_⟩
  obtain ⟨hmiddle, hmore⟩ := hread' hnone
  obtain ⟨hbefore, text, w, hpos, hw, hderives, hfree⟩ := hread hmiddle
  exact ⟨hbefore, hpos ▸ hmore text w hw (hc.single hderives) hfree⟩

end Chain

/-- With as many calls allowed as there are characters, all levels are sound. -/
theorem factor_sound_at (kind : Kind) (d : Nat) :
    Sound kind .factor (parseFactor (treeArith kind) (parseExpr (treeArith kind) d)) d := by
  induction d with
  | zero =>
    rintro ⟨pos, error⟩ hs
    obtain rfl : pos = [] := List.length_eq_zero_iff.mp (Nat.le_zero.mp hs)
    exact ⟨.num 0, ⟨[], true⟩, rfl, Nat.le_refl _, fun hnone => by cases hnone⟩
  | succ d ih => exact factor_sound (chain_sound (add_chain kind) (chain_sound (mul_chain kind) ih))

theorem term_sound_at (kind : Kind) (d : Nat) :
    Sound kind .term (parseTerm (treeArith kind) (parseExpr (treeArith kind) d)) d :=
  chain_sound (mul_chain kind) (factor_sound_at kind d)

theorem expr_sound_at (kind : Kind) (d : Nat) :
    Sound kind .expr (parseExpr (treeArith kind) (d + 1)) d :=
  chain_sound (add_chain kind) (term_sound_at kind d)

/-- What follows a number ends it. -/
def NoDigit (r : List UInt8) : Prop := r.head?.any isDigit = false

/-- What follows a product ends it. -/
def NoOp {Op : Type} (opOf : UInt8 → Option Op) (r : List UInt8) : Prop :=
  (r.dropWhile isBlank).head?.bind opOf = none

/-- Before any ending the text is read as the expression, with which the loop of the level goes on. -/
def Runs (kind : Kind) (text : List UInt8) (e : Ast) : Nonterminal → Prop
  | .factor => ∀ d r error, (text ++ r).length ≤ d → NoDigit r →
      parseFactor (treeArith kind) (parseExpr (treeArith kind) d) ⟨text ++ r, error⟩ = .ok (e, ⟨r, error⟩)
  | .term => ∀ d r error, (text ++ r).length ≤ d → NoDigit r →
      parseTerm (treeArith kind) (parseExpr (treeArith kind) d) ⟨text ++ r, error⟩ =
        opLoop mulOp (treeArith kind).mul (parseFactor (treeArith kind) (parseExpr (treeArith kind) d))
          (r.length + 1) e ⟨r, error⟩
  | .expr => ∀ d r error, (text ++ r).length ≤ d → NoDigit r → NoOp mulOp r →
      parseExpr (treeArith kind) (d + 1) ⟨text ++ r, error⟩ =
        opLoop addOp (treeArith kind).add (parseTerm (treeArith kind) (parseExpr (treeArith kind) d))
          (r.length + 1) e ⟨r, error⟩

section Loop
variable {Op : Type} {opOf : UInt8 → Option Op} {apply : Op → Ast → Ast → Except Fault (Ast × Bool)}

theorem skip_blanks {w : List UInt8} (hw : Blanks w) (r : List UInt8) (error : Bool) :
    skipWs ⟨w ++ r, error⟩ = skipWs ⟨r, error⟩ := by
  unfold skipWs
  dsimp only
  rw [List.dropWhile_append_of_pos hw]

theorem skip_char {c : UInt8} (hc : isBlank c = false) (r : List UInt8) (error : Bool) :
    skipWs ⟨c :: r, error⟩ = ⟨c :: r, error⟩ := by
  unfold skipWs
  dsimp only
  rw [List.dropWhile_cons_of_neg (by simp [hc])]

/-- More fuel than characters left makes no difference. -/
theorem loop_fuel (hoperand : Sound kind level operand n) {fuel fuel' : Nat} (hfuel : s.pos.length < fuel)
    (hfuel' : s.pos.length < fuel') (hn : s.pos.length ≤ n) :
    opLoop opOf apply operand fuel a s = opLoop opOf apply operand fuel' a s := by
  induction fuel generalizing fuel' a s with
  | zero => exact absurd hfuel (Nat.not_lt_zero _)
  | succ fuel ih =>
    obtain ⟨fuel', rfl⟩ := Nat.exists_eq_succ_of_ne_zero (Nat.ne_of_gt (Nat.lt_of_le_of_lt (Nat.zero_le _) hfuel'))
    obtain ⟨w, -, hpos⟩ := skip_split s
    have hlen := congrArg List.length hpos
    rw [List.length_append] at hlen
    unfold opLoop
    dsimp only
    cases hop : (skipWs s).pos.head?.bind opOf with
    | none => rfl
    | some op =>
      obtain ⟨c, hhead, -⟩ := Option.bind_eq_some_iff.mp hop
      obtain ⟨pos, hcons⟩ := List.head?_eq_some_iff.mp hhead
      rw [hcons, List.length_cons] at hlen
      rw [hcons, List.tail_cons]
      obtain ⟨b, t, hrun, hle, -⟩ := hoperand { skipWs s with pos := pos } (by dsimp only; omega)
      dsimp only at hle ⊢
      rw [hrun, ok_bind, ok_bind]
      dsimp only
      cases apply op a b with
      | error fault => rfl
      | ok result =>
        obtain ⟨e, more⟩ := result
        cases more with
        | false => rfl
        | true => exact ih (by omega) (by omega) (by omega)

theorem skip_skip (r : List UInt8) (error : Bool) : skipWs ⟨r.dropWhile isBlank, error⟩ = skipWs ⟨r, error⟩ := by
  unfold skipWs
  dsimp only
  rw [List.dropWhile_idempotent]

/-- Blanks before the loop make no difference. -/
theorem loop_skip (hoperand : Sound kind level operand n) (hn : r.length ≤ n) {fuel : Nat}
    (hfuel : (r.dropWhile isBlank).length < fuel) (a : Ast) (error : Bool) :
    opLoop opOf apply operand fuel a ⟨r.dropWhile isBlank, error⟩ =
      opLoop opOf apply operand (r.length + 1) a ⟨r, error⟩ := by
  have hle := List.length_dropWhile_le isBlank r
  have hfuels : opLoop opOf apply operand fuel a ⟨r.dropWhile isBlank, error⟩ =
      opLoop opOf apply operand (r.length + 1) a ⟨r.dropWhile isBlank, error⟩ :=
    loop_fuel hoperand hfuel (Nat.lt_succ_of_le hle) (hle.trans hn)
  rw [hfuels]
  unfold opLoop
  rw [skip_skip]

/-- The loop stops where there is no operator. -/
theorem loop_stops (hstop : NoOp opOf r) (fuel : Nat) (a : Ast) (error : Bool) :
    opLoop opOf apply operand (fuel + 1) a ⟨r, error⟩ = .ok (a, ⟨r.dropWhile isBlank, error⟩) := by
  unfold opLoop skipWs
  dsimp only
  rw [hstop]

/-- One round, where the operand is read and the operation goes on. -/
theorem loop_round {c : UInt8} {op : Op} {w : List UInt8} {error : Bool} (hw : Blanks w) (hblank : isBlank c = false)
    (hop : opOf c = some op) (hrun : operand ⟨pos, error⟩ = .ok (b, ⟨r, error⟩)) (happly : apply op a b = .ok (e, true))
    (fuel : Nat) :
    opLoop opOf apply operand (fuel + 1) a ⟨w ++ c :: pos, error⟩ = opLoop opOf apply operand fuel e ⟨r, error⟩ := by
  conv_lhs => unfold opLoop
  rw [skip_blanks hw, skip_char hblank]
  dsimp only [List.head?_cons, Option.bind_some, List.tail_cons]
  rw [hop]
  dsimp only
  rw [hrun, ok_bind]
  dsimp only
  rw [happly]
  rfl

end Loop

theorem numeral_head {ds : List UInt8} (hds : Numeral ds) (r : List UInt8) :
    ∃ c rest, ds ++ r = c :: rest ∧ isDigit c = true := by
  cases ds with
  | nil => exact absurd rfl hds.1
  | cons c ds => exact ⟨c, ds ++ r, rfl, hds.2 c List.mem_cons_self⟩

/-- A numeral is read whole where no digit comes after it. -/
theorem parse_numeral {ds : List UInt8} (hds : Numeral ds) (hr : NoDigit r) (error neg : Bool) :
    parseNumber (treeArith kind) neg ⟨ds ++ r, error⟩ = .ok (signed neg (numeralFrom 0 ds), ⟨r, error⟩) := by
  have hstop : r.takeWhile isDigit = [] ∧ r.dropWhile isDigit = r := by
    cases r with
    | nil => exact ⟨rfl, rfl⟩
    | cons c r =>
      have hc : ¬ isDigit c = true := Bool.eq_false_iff.mp hr
      exact ⟨List.takeWhile_cons_of_neg hc, List.dropWhile_cons_of_neg hc⟩
  have htake : (ds ++ r).takeWhile isDigit = ds := by
    rw [List.takeWhile_append_of_pos hds.2, hstop.1, List.append_nil]
  have hdrop : (ds ++ r).dropWhile isDigit = r := by
    rw [List.dropWhile_append_of_pos hds.2, hstop.2]
  have hhead : (ds ++ r).head?.any isDigit = true := by
    obtain ⟨c, rest, hcons, hc⟩ := numeral_head hds r
    rw [hcons]
    exact hc
  have hread : parseNumber (treeArith kind) neg ⟨ds ++ r, error⟩ = _ := number_read neg hhead
  rwa [htake, hdrop] at hread

theorem blank_cases {c : UInt8} (hc : isBlank c = true) : c = 32 ∨ c = 9 := by
  unfold isBlank at hc
  simpa using hc

theorem digit_not_blank {c : UInt8} (hc : isDigit c = true) : isBlank c = false := by
  by_contra hblank
  rcases blank_cases (Bool.eq_true_of_not_eq_false hblank) with rfl | rfl
  · cases hc
  · cases hc

/-- After blanks, a character that is no digit ends a number. -/
theorem no_digit_blanks {w : List UInt8} (hw : Blanks w) (hr : NoDigit r) : NoDigit (w ++ r) := by
  cases w with
  | nil => exact hr
  | cons b w =>
    rcases blank_cases (hw b List.mem_cons_self) with rfl | rfl
    · rfl
    · rfl

/-- After blanks, a character that is no operator ends the loop. -/
theorem no_op_blanks {Op : Type} {opOf : UInt8 → Option Op} {w : List UInt8} (hw : Blanks w) {c : UInt8}
    (hblank : isBlank c = false) (hop : opOf c = none) (r : List UInt8) : NoOp opOf (w ++ c :: r) := by
  unfold NoOp
  rw [List.dropWhile_append_of_pos hw, List.dropWhile_cons_of_neg (by simp [hblank])]
  exact hop

theorem mul_char (op : MulOp) : isBlank (MulOp.char op) = false ∧ isDigit (MulOp.char op) = false := by
  cases op
  all_goals exact ⟨rfl, rfl⟩

theorem add_char (op : AddOp) :
    isBlank (AddOp.char op) = false ∧ isDigit (AddOp.char op) = false ∧ mulOp (AddOp.char op) = none := by
  cases op
  all_goals exact ⟨rfl, rfl, rfl⟩

theorem number_run {w ds : List UInt8} (hw : Blanks w) (hds : Numeral ds) :
    Runs kind (w ++ ds) (.num (numeralFrom 0 ds)) .factor := by
  intro d r error _ hr
  obtain ⟨c, rest, hcons, hc⟩ := numeral_head hds r
  have hskip : skipWs ⟨ds ++ r, error⟩ = ⟨ds ++ r, error⟩ := by
    rw [hcons, skip_char (digit_not_blank hc)]
  have hopen : ¬ (ds ++ r).head? = some 40 := by
    rw [hcons]
    rintro ⟨⟩
    cases hc
  have hminus : ¬ (ds ++ r).head? = some 45 := by
    rw [hcons]
    rintro ⟨⟩
    cases hc
  unfold parseFactor
  rw [List.append_assoc, skip_blanks hw, hskip]
  dsimp only
  rw [if_neg hopen, if_neg hminus, parse_numeral hds hr error false]
  rfl

theorem minus_run {w w' ds : List UInt8} (hw : Blanks w) (hw' : Blanks w') (hds : Numeral ds) :
    Runs kind (w ++ 45 :: (w' ++ ds)) (.neg (numeralFrom 0 ds)) .factor := by
  intro d r error _ hr
  obtain ⟨c, rest, hcons, hc⟩ := numeral_head hds r
  have hskip : skipWs ⟨ds ++ r, error⟩ = ⟨ds ++ r, error⟩ := by
    rw [hcons, skip_char (digit_not_blank hc)]
  unfold parseFactor
  rw [List.append_assoc, skip_blanks hw, List.cons_append, skip_char rfl]
  dsimp only [List.tail_cons]
  rw [if_neg (by simp), List.head?_cons, if_pos rfl, List.append_assoc, skip_blanks hw', hskip,
    parse_numeral hds hr error true]
  rfl

/-- The inner expression ends at the closing parenthesis. -/
theorem paren_run {w w' s : List UInt8} (hw : Blanks w) (hw' : Blanks w') (hs : Runs kind s e .expr) :
    Runs kind (w ++ 40 :: (s ++ (w' ++ [41]))) e .factor := by
  intro d r error hd _
  have hlen : (s ++ (w' ++ 41 :: r)).length < d := by
    simp only [List.length_append, List.length_cons, List.length_nil] at hd ⊢
    omega
  obtain ⟨d, rfl⟩ := Nat.exists_eq_succ_of_ne_zero (Nat.ne_of_gt (Nat.lt_of_le_of_lt (Nat.zero_le _) hlen))
  have hinner := hs d (w' ++ 41 :: r) error (Nat.le_of_lt_succ hlen) (no_digit_blanks hw' rfl)
    (no_op_blanks hw' rfl rfl r)
  have hdrop : (w' ++ 41 :: r).dropWhile isBlank = 41 :: r := by
    rw [List.dropWhile_append_of_pos hw', List.dropWhile_cons_of_neg (by decide)]
  rw [loop_stops (no_op_blanks hw' rfl rfl r), hdrop] at hinner
  have htext : w ++ 40 :: (s ++ (w' ++ [41])) ++ r = w ++ 40 :: (s ++ (w' ++ 41 :: r)) := by
    simp
  unfold parseFactor
  rw [htext, skip_blanks hw, skip_char rfl]
  dsimp only [List.tail_cons]
  rw [List.head?_cons, if_pos rfl, hinner, ok_bind, skip_char rfl]
  rfl

/-- A derivation is what the parser comes to. -/
theorem derives_run (h : Derives level text e) (hfree : e.Free kind) : Runs kind text e level := by
  induction h with
  | number hw hds => exact number_run hw hds
  | minus hw hw' hds => exact minus_run hw hw' hds
  | paren hw _ hw' ih => exact paren_run hw hw' (ih hfree)
  | factor _ ih =>
    intro d r error hd hr
    unfold parseTerm parseChain
    rw [ih hfree d r error hd hr, ok_bind]
  | @mul w s s' a b op hs hw hs' iha ihb =>
    intro d r error hd hr
    have happly : (treeArith kind).mul op a b = .ok (.mul op a b, true) := by
      simp [treeArith, hfree.2.2]
    have htext : s ++ (w ++ MulOp.char op :: s') ++ r = s ++ (w ++ MulOp.char op :: (s' ++ r)) := by
      simp
    rw [htext] at hd ⊢
    have hlen := hd
    simp only [List.length_append, List.length_cons] at hlen
    rw [iha hfree.1 d _ error hd (no_digit_blanks hw (mul_char op).2),
      loop_round hw (mul_char op).1 (mul_op_iff.mpr rfl)
        (ihb hfree.2.1 d r error (by rw [List.length_append]; omega) hr) happly]
    refine loop_fuel (factor_sound_at kind d) ?_ (Nat.lt_succ_self _) (by dsimp only; omega)
    simp only [List.length_append, List.length_cons]
    omega
  | term _ ih =>
    intro d r error hd hr hop
    have hlen := hd
    rw [List.length_append] at hlen
    have hexpr : parseExpr (treeArith kind) (d + 1) =
        parseChain addOp (treeArith kind).add (parseTerm (treeArith kind) (parseExpr (treeArith kind) d)) := rfl
    rw [hexpr]
    unfold parseChain
    rw [ih hfree d r error hd hr, loop_stops hop, ok_bind]
    exact loop_skip (term_sound_at kind d) (by omega) (Nat.lt_succ_self _) _ error
  | @add w s s' a b op hs hw hs' iha ihb =>
    intro d r error hd hr hop
    have happly : (treeArith kind).add op a b = .ok (.add op a b, true) := rfl
    have htext : s ++ (w ++ AddOp.char op :: s') ++ r = s ++ (w ++ AddOp.char op :: (s' ++ r)) := by
      simp
    rw [htext] at hd ⊢
    have hlen := hd
    simp only [List.length_append, List.length_cons] at hlen
    obtain ⟨hblank, hdigit, hmul⟩ := add_char op
    have hoperand := ihb hfree.2 d r error (by rw [List.length_append]; omega) hr
    rw [loop_stops hop] at hoperand
    rw [iha hfree.1 d _ error hd (no_digit_blanks hw hdigit) (no_op_blanks hw hblank hmul _),
      loop_round hw hblank (add_op_iff.mpr rfl) hoperand happly]
    refine loop_skip (term_sound_at kind d) (by omega) ?_ _ error
    have hle := List.length_dropWhile_le isBlank r
    simp only [List.length_append, List.length_cons]
    omega

theorem eval_with_eq {N V : Type} {A : Arith N V} {s : List UInt8} {v : V}
    (hrun : parseExpr A (s.length + 1) ⟨s, false⟩ = .ok (v, t)) :
    evalWith A s = .ok (if t.error = true ∨ (skipWs t).pos ≠ [] then none else some v) := by
  simp only [evalWith, hrun, ok_bind, apply_ite Except.ok]
  rfl

theorem parse_tree (kind : Kind) (s : List UInt8) :
    ∃ e t, parseExpr (treeArith kind) (s.length + 1) ⟨s, false⟩ = .ok (e, t) := by
  obtain ⟨e, t, hrun, -⟩ := expr_sound_at kind s.length ⟨s, false⟩ (Nat.le_refl _)
  exact ⟨e, t, hrun⟩

/-- The parser takes exactly the expressions, as far as no operation ends a term of theirs. -/
theorem eval_tree_iff (kind : Kind) (s : List UInt8) (e : Ast) :
    evalWith (treeArith kind) s = .ok (some e) ↔ Expression s e ∧ e.Free kind := by
  obtain ⟨e', t, hrun, -, hread⟩ := expr_sound_at kind s.length ⟨s, false⟩ (Nat.le_refl _)
  dsimp only at hread
  obtain ⟨w, hw, hpos⟩ := skip_split t
  rw [eval_with_eq hrun]
  constructor
  · intro hsome
    have hsome := Except.ok.inj hsome
    split at hsome
    · cases hsome
    · rename_i haccept
      rw [not_or, not_ne_iff] at haccept
      obtain ⟨herror, hend⟩ := haccept
      obtain ⟨-, text, w', htext, hw', hderives, hfree⟩ := hread (Bool.eq_false_iff.mpr herror)
      rw [hpos, hend, List.append_nil] at htext
      obtain rfl := Option.some.inj hsome
      exact ⟨⟨text, w' ++ w, htext, blanks_append hw' hw, hderives⟩, hfree⟩
  · rintro ⟨⟨text, w', rfl, hw', hderives⟩, hfree⟩
    have hdrop : w'.dropWhile isBlank = [] := List.dropWhile_eq_nil_iff.mpr hw'
    have hop : ∀ {Op : Type} (opOf : UInt8 → Option Op), NoOp opOf w' := by
      intro Op opOf
      unfold NoOp
      rw [hdrop]
      rfl
    have hdigit : NoDigit w' := by
      rw [← List.append_nil w']
      exact no_digit_blanks hw' rfl
    have hruns := derives_run hderives hfree (text ++ w').length w' false (Nat.le_refl _) hdigit (hop mulOp)
    rw [loop_stops (hop addOp), hdrop, hrun] at hruns
    obtain ⟨rfl, rfl⟩ := Prod.mk.inj (Except.ok.inj hruns)
    rfl

theorem free_none (e : Ast) : e.Free (fun _ _ _ => false) := by
  induction e with
  | num n => trivial
  | neg n => trivial
  | mul op a b iha ihb => exact ⟨iha, ihb, rfl⟩
  | add op a b iha ihb => exact ⟨iha, ihb⟩

/-- The grammar is unambiguous: the parser that no operation stops reads every expression as its one tree. -/
theorem expression_unique {s : List UInt8} (h : Expression s a) (h' : Expression s b) : a = b := by
  have ha := (eval_tree_iff _ s a).mpr ⟨h, free_none a⟩
  have hb := (eval_tree_iff _ s b).mpr ⟨h', free_none b⟩
  exact Option.some.inj (Except.ok.inj (ha.symm.trans hb))

end BaSic.Proofs.CalcTree
