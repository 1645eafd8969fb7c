import Mathlib

namespace BaSic.Lib

/-- Results and final state of a deterministic system fed a list of operations. -/
def run {σ ω ρ : Type*} (f : σ → ω → ρ × σ) : σ → List ω → List ρ × σ
  | s, [] => ([], s)
  | s, op :: ops =>
    let (r, t) := f s op
    let (rs, u) := run f t ops
    (r :: rs, u)

/-- What every operation of the kind met preserves holds at the end of a run. -/
theorem run_invariant {σ ω ρ : Type*} {f : σ → ω → ρ × σ} {Q : ω → Prop} {I : σ → Prop}
    (hstep : ∀ s op, Q op → I s → I (f s op).2) {ops : List ω} (hops : ∀ op ∈ ops, Q op) {s : σ}
    (hs : I s) : I (run f s ops).2 := by
  induction ops generalizing s with
  | nil => exact hs
  | cons op ops ih =>
    exact ih (fun op hop => hops op (List.mem_cons_of_mem _ hop)) (hstep s op (hops op List.mem_cons_self) hs)

/-- Two deterministic systems in related states answer operations of the kind met alike and
stay related. -/
theorem run_simulates_on {σ τ ω ρ : Type*} {f : σ → ω → ρ × σ} {g : τ → ω → ρ × τ} {S : σ → τ → Prop}
    {Q : ω → Prop} (hstep : ∀ s t op, Q op → S s t → (f s op).1 = (g t op).1 ∧ S (f s op).2 (g t op).2)
    {ops : List ω} (hops : ∀ op ∈ ops, Q op) {s : σ} {t : τ} (hs : S s t) :
    (run f s ops).1 = (run g t ops).1 ∧ S (run f s ops).2 (run g t ops).2 := by
  induction ops generalizing s t with
  | nil => exact ⟨rfl, hs⟩
  | cons op ops ih =>
    obtain ⟨hr, hn⟩ := hstep s t op (hops op List.mem_cons_self) hs
    obtain ⟨hrs, hu⟩ := ih (fun op hop => hops op (List.mem_cons_of_mem _ hop)) hn
    exact ⟨by simp [run, hr, hrs], hu⟩

theorem run_simulates {σ τ ω ρ : Type*} {f : σ → ω → ρ × σ} {g : τ → ω → ρ × τ} {S : σ → τ → Prop}
    (hstep : ∀ s t op, S s t → (f s op).1 = (g t op).1 ∧ S (f s op).2 (g t op).2)
    (ops : List ω) {s : σ} {t : τ} (hs : S s t) :
    (run f s ops).1 = (run g t ops).1 ∧ S (run f s ops).2 (run g t ops).2 :=
  run_simulates_on (Q := fun _ => True) (fun s t op _ => hstep s t op) (fun _ _ => trivial) hs

/-- A run of a labelled transition relation, recording each operation together
with what it returned. -/
inductive Steps {σ ω ρ : Type*} (R : σ → ω → ρ → σ → Prop) : σ → List (ω × ρ) → σ → Prop where
  | nil (s : σ) : Steps R s [] s
  | cons {s t u : σ} {op : ω} {r : ρ} {trace : List (ω × ρ)}
      (head : R s op r t) (tail : Steps R t trace u) : Steps R s ((op, r) :: trace) u

variable {σ ω ρ : Type*} {R : σ → ω → ρ → σ → Prop}

/-- What every step preserves holds at the end of every run. -/
theorem Steps.invariant {I : σ → Prop} (hstep : ∀ s op r t, I s → R s op r t → I t)
    {s u : σ} {trace : List (ω × ρ)} (h : Steps R s trace u) (hs : I s) : I u := by
  induction h with
  | nil s => exact hs
  | cons head _ ih => exact ih (hstep _ _ _ _ hs head)

/-- A run over a split trace passes through a state between the two halves. -/
theorem Steps.split {s u : σ} {xs ys : List (ω × ρ)} (h : Steps R s (xs ++ ys) u) :
    ∃ t, Steps R s xs t ∧ Steps R t ys u := by
  induction xs generalizing s with
  | nil => exact ⟨s, .nil s, h⟩
  | cons x xs ih =>
    cases h with
    | cons head tail =>
      obtain ⟨t, hx, hy⟩ := ih tail
      exact ⟨t, .cons head hx, hy⟩

/-- One step of a deterministic system whose operations have a precondition. -/
def Guarded (P : σ → ω → Prop) (f : σ → ω → ρ × σ) (s : σ) (op : ω) (r : ρ) (t : σ) : Prop :=
  P s op ∧ f s op = (r, t)

/-- What every permitted operation preserves holds at the end of every run. -/
theorem Steps.guarded_invariant {P : σ → ω → Prop} {f : σ → ω → ρ × σ} {I : σ → Prop}
    (hstep : ∀ s op, I s → P s op → I (f s op).2) {s u : σ} {trace : List (ω × ρ)}
    (h : Steps (Guarded P f) s trace u) (hs : I s) : I u := by
  refine h.invariant (fun s op r t hs hc => ?_) hs
  obtain ⟨hop, hrun⟩ := hc
  have ht := hstep s op hs hop
  rwa [hrun] at ht

/-- Every operation of the list meets its precondition when its turn comes. -/
def Along (P : σ → ω → Prop) (f : σ → ω → ρ × σ) : σ → List ω → Prop
  | _, [] => True
  | s, op :: ops => P s op ∧ Along P f (f s op).2 ops

instance Along.decidable (P : σ → ω → Prop) (f : σ → ω → ρ × σ) [∀ s op, Decidable (P s op)] :
    (s : σ) → (ops : List ω) → Decidable (Along P f s ops)
  | _, [] => inferInstanceAs (Decidable True)
  | s, op :: ops =>
    have := Along.decidable P f (f s op).2 ops
    inferInstanceAs (Decidable (P s op ∧ Along P f (f s op).2 ops))

/-- Two preconditions that agree wherever the invariant holds are met along the same runs;
the invariant needs to survive the steps that meet them only. -/
theorem Along.congr {P Q : σ → ω → Prop} {f : σ → ω → ρ × σ} {I : σ → Prop}
    (hstep : ∀ s op, I s → P s op → I (f s op).2) (h : ∀ s op, I s → (P s op ↔ Q s op)) {s : σ} (hs : I s)
    (ops : List ω) : Along P f s ops ↔ Along Q f s ops := by
  induction ops generalizing s with
  | nil => exact Iff.rfl
  | cons op ops ih =>
    constructor
    · rintro ⟨hp, hrest⟩
      exact ⟨(h s op hs).mp hp, (ih (hstep s op hs hp)).mp hrest⟩
    · rintro ⟨hq, hrest⟩
      have hp : P s op := (h s op hs).mpr hq
      exact ⟨hp, (ih (hstep s op hs hp)).mpr hrest⟩

theorem Along.of_forall {P : σ → ω → Prop} {f : σ → ω → ρ × σ} (h : ∀ s op, P s op) (s : σ) (ops : List ω) :
    Along P f s ops := by
  induction ops generalizing s with
  | nil => trivial
  | cons op ops ih => exact ⟨h s op, ih _⟩

/-- A precondition met along a run is met by every operation where it stands. -/
theorem Along.iff_split {P : σ → ω → Prop} {f : σ → ω → ρ × σ} {s : σ} {ops : List ω} :
    Along P f s ops ↔ ∀ before op after, ops = before ++ op :: after → P (run f s before).2 op := by
  induction ops generalizing s with
  | nil =>
    refine iff_of_true trivial (fun before op after h => ?_)
    simp at h
  | cons x ops ih =>
    constructor
    · rintro ⟨hx, hrest⟩ before op after h
      cases before with
      | nil =>
        obtain ⟨rfl, -⟩ := List.cons.inj h
        exact hx
      | cons y before =>
        obtain ⟨rfl, htail⟩ := List.cons.inj h
        exact ih.mp hrest before op after htail
    · intro h
      refine ⟨h [] x ops rfl, ih.mpr (fun before op after htail => ?_)⟩
      exact h (x :: before) op after (congrArg (x :: ·) htail)

/-- The operation leaves a state with the property. -/
def After (f : σ → ω → ρ × σ) (I : σ → Prop) (s : σ) (op : ω) : Prop := I (f s op).2

/-- Where a step keeps the property exactly when it meets a condition, a run has the
property in every state reached exactly when all its steps meet the condition. -/
theorem Along.after_iff {Q : σ → ω → Prop} {f : σ → ω → ρ × σ} {I J : σ → Prop}
    (hstep : ∀ s op, J s → I s → Q s op → J (f s op).2) (h : ∀ s op, J s → I s → (I (f s op).2 ↔ Q s op))
    {s : σ} (hj : J s) (hi : I s) (ops : List ω) : Along (After f I) f s ops ↔ Along Q f s ops := by
  refine Along.congr (I := fun s => J s ∧ I s) (fun s op hs hafter => ⟨?_, hafter⟩) ?_ ⟨hj, hi⟩ ops
  · exact hstep s op hs.1 hs.2 ((h s op hs.1 hs.2).mp hafter)
  · exact fun s op hs => h s op hs.1 hs.2

theorem run_steps {P : σ → ω → Prop} {f : σ → ω → ρ × σ} {s : σ} {ops : List ω} {rs : List ρ}
    (h : Along P f s ops) (hrs : (run f s ops).1 = rs) :
    Steps (Guarded P f) s (ops.zip rs) (run f s ops).2 := by
  subst hrs
  induction ops generalizing s with
  | nil => exact .nil s
  | cons op ops ih => exact .cons ⟨h.1, rfl⟩ (ih h.2)

/-- Running a list of operations until one of them fails. -/
def runAll {ε : Type*} (f : σ → ω → Except ε (ρ × σ)) : σ → List ω → Except ε (List ρ × σ)
  | s, [] => .ok ([], s)
  | s, op :: ops =>
    match f s op with
    | .error e => .error e
    | .ok (r, t) =>
      match runAll f t ops with
      | .error e => .error e
      | .ok (rs, u) => .ok (r :: rs, u)

/-- What such a run returned is a run of the transition relation. -/
theorem run_all_steps {ε : Type*} {f : σ → ω → Except ε (ρ × σ)} {s u : σ} {ops : List ω} {rs : List ρ}
    (h : runAll f s ops = .ok (rs, u))
    (hR : ∀ s op r t, op ∈ ops → f s op = .ok (r, t) → R s op r t) : Steps R s (ops.zip rs) u := by
  induction ops generalizing s rs with
  | nil =>
    cases h
    exact .nil _
  | cons op ops ih =>
    rw [runAll] at h
    cases hf : f s op with
    | error e =>
      rw [hf] at h
      cases h
    | ok x =>
      obtain ⟨r, t⟩ := x
      simp only [hf] at h
      cases hrest : runAll f t ops with
      | error e =>
        rw [hrest] at h
        cases h
      | ok y =>
        rw [hrest] at h
        cases h
        exact .cons (hR s op r t List.mem_cons_self hf)
          (ih hrest (fun s x r t hx => hR s x r t (List.mem_cons_of_mem _ hx)))

end BaSic.Lib
