import Mathlib

namespace BaSic.Lib

/-- What happens at a place for one value: a value is put there, on top of what is there, or it is
looked at, or emptied. -/
inductive PlaceAct (α : Type*) where
  | put (value : α)
  | look
  | clear

def PlaceAct.on {α : Type*} : PlaceAct α → Option α → Option α
  | .put v, _ => some v
  | .look, held => held
  | .clear, _ => none

namespace Mailbox

variable {α β σ ε : Type*}

/-- The values put, in order. -/
def puts : List (PlaceAct α) → List α
  | [] => []
  | .put v :: acts => v :: puts acts
  | _ :: acts => puts acts

/-- The next thing to happen is a look. -/
def LookNext : List (PlaceAct α) → Prop
  | .look :: _ => True
  | _ => False

instance : DecidablePred (LookNext (α := α)) := fun acts =>
  match acts with
  | [] => .isFalse id
  | .put _ :: _ => .isFalse id
  | .look :: _ => .isTrue trivial
  | .clear :: _ => .isFalse id

/-- The values put that are looked at before anything else happens there. -/
def met : List (PlaceAct α) → List α
  | [] => []
  | .put v :: acts => if LookNext acts then v :: met acts else met acts
  | _ :: acts => met acts

/-- No value put is overtaken by another, or emptied unseen. -/
def Kept : List (PlaceAct α) → Prop
  | [] => True
  | .put _ :: acts => LookNext acts ∧ Kept acts
  | _ :: acts => Kept acts

/-- What is seen at the place when it is looked at. -/
def seen : Option α → List (PlaceAct α) → List α
  | _, [] => []
  | held, .look :: acts => held.toList ++ seen held acts
  | held, a :: acts => seen (a.on held) acts

/-- After a look the place is emptied before it is looked at again. -/
def Emptied : Bool → List (PlaceAct α) → Prop
  | _, [] => True
  | looked, .put _ :: acts => Emptied looked acts
  | looked, .look :: acts => looked = false ∧ Emptied true acts
  | _, .clear :: acts => Emptied false acts

theorem met_sublist (acts : List (PlaceAct α)) : (met acts).Sublist (puts acts) := by
  induction acts with
  | nil => exact List.Sublist.refl []
  | cons a acts ih =>
    cases a with
    | put v =>
      simp only [met, puts]
      split
      · exact ih.cons_cons v
      · exact ih.cons v
    | look => exact ih
    | clear => exact ih

theorem met_kept {acts : List (PlaceAct α)} (h : Kept acts) : met acts = puts acts := by
  induction acts with
  | nil => rfl
  | cons a acts ih =>
    cases a with
    | put v =>
      simp only [met, puts]
      rw [if_pos h.1, ih h.2]
    | look => exact ih h
    | clear => exact ih h

/-- What is at the place counts for the next look only; all else that is seen was put and met. -/
theorem seen_eq {acts : List (PlaceAct α)} {looked : Bool} (held : Option α) (h : Emptied looked acts) :
    seen held acts = (if LookNext acts then held.toList else []) ++ met acts := by
  induction acts generalizing held looked with
  | nil => rfl
  | cons a acts ih =>
    cases a with
    | put v =>
      have hrest := ih (some v) h
      have hno : ¬ LookNext (.put v :: acts) := id
      simp only [seen, met, PlaceAct.on]
      rw [hrest, if_neg hno]
      split <;> rfl
    | look =>
      have hrest := ih held h.2
      have hno : ¬ LookNext acts := by
        intro hlook
        cases acts with
        | nil => exact hlook
        | cons b acts =>
          cases b with
          | look => exact absurd h.2.1 Bool.noConfusion
          | _ => exact hlook
      have hyes : LookNext (.look :: acts) := trivial
      simp only [seen, met]
      rw [hrest, if_neg hno, if_pos hyes, List.nil_append]
    | clear =>
      have hrest := ih none h
      have hno : ¬ LookNext (.clear :: acts) := id
      simp only [seen, met, PlaceAct.on]
      rw [hrest, if_neg hno]
      split <;> rfl

/-- A system with a place in it: what an event does there, what is held, what was made so far of
what was read there, and whether the place is still to be emptied. -/
structure Served (step : σ → ε → σ) (α β : Type*) where
  act : σ → ε → Option (PlaceAct α)
  held : σ → Option α
  view : α → List β
  read : σ → List β
  looked : σ → Bool
  held_step : ∀ s e, held (step s e) = (act s e).elim (held s) (fun a => a.on (held s))
  read_step : ∀ s e, read (step s e) = read s ++ match act s e with
    | some .look => (held s).toList.flatMap view
    | _ => []
  looked_step : ∀ s e, match act s e with
    | some .look => looked s = false ∧ looked (step s e) = true
    | some .clear => looked (step s e) = false
    | _ => looked (step s e) = looked s

namespace Served

variable {step : σ → ε → σ}

/-- What a run does at the place. -/
def acts (p : Served step α β) : σ → List ε → List (PlaceAct α)
  | _, [] => []
  | s, e :: es => (p.act s e).toList ++ acts p (step s e) es

theorem acts_cons (p : Served step α β) (s : σ) (e : ε) (es : List ε) :
    p.acts s (e :: es) = (p.act s e).toList ++ p.acts (step s e) es := rfl

theorem acts_emptied (p : Served step α β) (s : σ) (es : List ε) : Emptied (p.looked s) (p.acts s es) := by
  induction es generalizing s with
  | nil => trivial
  | cons e es ih =>
    have hstep := p.looked_step s e
    have hrest := ih (step s e)
    rw [acts_cons]
    cases hact : p.act s e with
    | none =>
      simp only [hact] at hstep
      exact hstep ▸ hrest
    | some a =>
      simp only [hact] at hstep
      cases a with
      | put v => exact (hstep ▸ hrest : Emptied (p.looked s) (p.acts (step s e) es))
      | look => exact ⟨hstep.1, hstep.2 ▸ hrest⟩
      | clear => exact (hstep ▸ hrest : Emptied false (p.acts (step s e) es))

theorem read_seen (p : Served step α β) (s : σ) (es : List ε) :
    p.read (es.foldl step s) = p.read s ++ (seen (p.held s) (p.acts s es)).flatMap p.view := by
  induction es generalizing s with
  | nil => exact (List.append_nil _).symm
  | cons e es ih =>
    have hheld := p.held_step s e
    rw [List.foldl_cons, ih, p.read_step, hheld, acts_cons]
    cases hact : p.act s e with
    | none => simp
    | some a => cases a <;> simp [seen, PlaceAct.on]

/-- What is read at a place that was empty: the values put there that were met, in order, each once. -/
theorem reads_met (p : Served step α β) {s : σ} (hempty : p.held s = none) (es : List ε) :
    p.read (es.foldl step s) = p.read s ++ (met (p.acts s es)).flatMap p.view := by
  rw [p.read_seen, hempty, seen_eq none (p.acts_emptied s es)]
  simp

end Served
end Mailbox
end BaSic.Lib
