import BaSic.Lib.Steps

namespace BaSic.Lib

/-- Parties that act one at a time, and the messages that others have put among theirs. -/
structure Soup (ι σ μ : Type*) where
  parties : ι → σ
  others : List μ

inductive SoupEvent (ι α μ : Type*) where
  | act (i : ι) (a : α)
  | other (m : μ)

/-- How the parties act: what they have sent so far, the messages an act takes, what a message
may have become when it arrives, and what others may send. -/
structure SoupRules (σ α μ : Type*) where
  act : σ → α → σ
  sent : σ → List μ
  takes : α → List μ
  arrives : μ → μ → Prop
  honest : μ → Prop

variable {ι σ α μ : Type*} {R : SoupRules σ α μ} {w u : Soup ι σ μ} {past trace : List (SoupEvent ι α μ × Unit)}

def Soup.Sent (R : SoupRules σ α μ) (w : Soup ι σ μ) (m : μ) : Prop := (∃ i, m ∈ R.sent (w.parties i)) ∨ m ∈ w.others

/-- Messages are never used up, so they may get lost, arrive in any order, or more than once. -/
inductive Soup.Step [DecidableEq ι] (R : SoupRules σ α μ) : Soup ι σ μ → SoupEvent ι α μ → Unit → Soup ι σ μ → Prop where
  | act (w : Soup ι σ μ) (i : ι) (a : α) (htaken : ∀ m ∈ R.takes a, ∃ m', w.Sent R m' ∧ R.arrives m' m) :
      Soup.Step R w (.act i a) () { w with parties := Function.update w.parties i (R.act (w.parties i) a) }
  | other (w : Soup ι σ μ) (m : μ) (h : R.honest m) : Soup.Step R w (.other m) () { w with others := m :: w.others }

/-- What is known of a party, and of every message, after the events so far. -/
structure SoupInvariant (R : SoupRules σ α μ) (I : List (SoupEvent ι α μ × Unit) → ι → σ → Prop)
    (T : List (SoupEvent ι α μ × Unit) → μ → Prop) : Prop where
  grows : ∀ past e i s, I past i s → I (past ++ [e]) i s
  lasts : ∀ past e m, T past m → T (past ++ [e]) m
  acts : ∀ past i s a, I past i s → (∀ m ∈ R.sent s, T past m) →
    (∀ m ∈ R.takes a, ∃ m', T past m' ∧ R.arrives m' m) →
    I (past ++ [(.act i a, ())]) i (R.act s a) ∧ ∀ m ∈ R.sent (R.act s a), T (past ++ [(.act i a, ())]) m
  others : ∀ past m, R.honest m → T (past ++ [(.other m, ())]) m

/-- What every act keeps of the party that acts, and says of the messages it sends, holds of
all parties and of all messages at the end of every run. -/
theorem Soup.invariant [DecidableEq ι] {I : List (SoupEvent ι α μ × Unit) → ι → σ → Prop}
    {T : List (SoupEvent ι α μ × Unit) → μ → Prop} (hinv : SoupInvariant R I T) (h : Steps (Soup.Step R) w trace u)
    (hparties : ∀ i, I past i (w.parties i)) (hsent : ∀ m, w.Sent R m → T past m) :
    (∀ i, I (past ++ trace) i (u.parties i)) ∧ ∀ m, u.Sent R m → T (past ++ trace) m := by
  induction h generalizing past with
  | nil w =>
    rw [List.append_nil]
    exact ⟨hparties, hsent⟩
  | @cons w v u e r trace head tail ih =>
    rw [List.append_cons past (e, r) trace]
    cases head with
    | act i a htaken =>
      obtain ⟨hacts, hnew⟩ := hinv.acts past i (w.parties i) a (hparties i) (fun m hm => hsent m (Or.inl ⟨i, hm⟩))
        (fun m hm => (htaken m hm).imp (fun m' h => ⟨hsent m' h.1, h.2⟩))
      apply ih
      · intro j
        by_cases hj : j = i
        · subst hj
          simpa using hacts
        · simpa [Function.update_of_ne hj] using hinv.grows past _ j _ (hparties j)
      · rintro m (⟨j, hm⟩ | hm)
        · by_cases hj : j = i
          · subst hj
            exact hnew m (by simpa using hm)
          · refine hinv.lasts past _ m (hsent m (Or.inl ⟨j, ?_⟩))
            simpa [Function.update_of_ne hj] using hm
        · exact hinv.lasts past _ m (hsent m (Or.inr hm))
    | other m h =>
      apply ih
      · exact fun j => hinv.grows past _ j _ (hparties j)
      · rintro m' (hm | hm)
        · exact hinv.lasts past _ m' (hsent m' (Or.inl hm))
        · rcases List.mem_cons.mp hm with rfl | hm
          · exact hinv.others past m' h
          · exact hinv.lasts past _ m' (hsent m' (Or.inr hm))

end BaSic.Lib
