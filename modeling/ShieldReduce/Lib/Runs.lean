import Mathlib.Logic.Basic

/-!
# Runs of a transition system

A system is a partial step function. `runs` takes one action after the other; `StepsMeet` says
that every step a run takes meets a condition on the state before it and the action.
-/

namespace ShieldReduce.Lib

section Runs
variable {S A : Type} (step : S → A → Option S)

def runs : S → List A → Option S
  | s, [] => some s
  | s, a :: acts => (step s a).bind fun s' => runs s' acts

def StepsMeet (Ok : S → A → Prop) : S → List A → Prop
  | _, [] => True
  | s, a :: acts => Ok s a ∧ ∀ s', step s a = some s' → StepsMeet Ok s' acts

variable {step}

theorem runs_cons {s s' : S} {a : A} {acts : List A} :
    runs step s (a :: acts) = some s' ↔ ∃ t, step s a = some t ∧ runs step t acts = some s' := by
  rw [runs]
  exact Option.bind_eq_some_iff

theorem runs_append {s s' : S} {acts more : List A} :
    runs step s (acts ++ more) = some s' ↔
      ∃ t, runs step s acts = some t ∧ runs step t more = some s' := by
  induction acts generalizing s with
  | nil => simp [runs]
  | cons a acts ih =>
    rw [List.cons_append, runs_cons]
    constructor
    · rintro ⟨u, hu, hrest⟩
      obtain ⟨t, ht, hmore⟩ := ih.mp hrest
      exact ⟨t, runs_cons.mpr ⟨u, hu, ht⟩, hmore⟩
    · rintro ⟨t, ht, hmore⟩
      obtain ⟨u, hu, hrest⟩ := runs_cons.mp ht
      exact ⟨u, hu, ih.mpr ⟨t, hrest, hmore⟩⟩

/-- What every step that meets the condition preserves, a run of such steps preserves. -/
theorem runs_preserve {P : S → Prop} {Ok : S → A → Prop}
    (hstep : ∀ {s s' a}, P s → Ok s a → step s a = some s' → P s') {s s' : S} {acts : List A}
    (hs : P s) (hmeet : StepsMeet step Ok s acts) (hrun : runs step s acts = some s') : P s' := by
  induction acts generalizing s with
  | nil =>
    simp only [runs, Option.some.injEq] at hrun
    rw [← hrun]
    exact hs
  | cons a acts ih =>
    obtain ⟨t, ht, hrest⟩ := runs_cons.mp hrun
    exact ih (hstep hs hmeet.1 ht) (hmeet.2 t ht) hrest

/-- The step in the middle of a run. -/
theorem StepsMeet.mid {Ok : S → A → Prop} {s s' : S} {before after : List A} {a : A}
    (hmeet : StepsMeet step Ok s (before ++ a :: after)) (hrun : runs step s before = some s') :
    Ok s' a := by
  induction before generalizing s with
  | nil =>
    rw [← Option.some.inj hrun]
    exact hmeet.1
  | cons b before ih =>
    obtain ⟨t, ht, hrest⟩ := runs_cons.mp hrun
    exact ih (hmeet.2 t ht) hrest

theorem stepsMeet_of_forall {Ok : S → A → Prop} {acts : List A} (h : ∀ s, ∀ a ∈ acts, Ok s a)
    (s : S) : StepsMeet step Ok s acts := by
  induction acts generalizing s with
  | nil => trivial
  | cons a acts ih =>
    exact ⟨h s a (by simp), fun t _ => ih (fun u b hb => h u b (List.mem_cons_of_mem a hb)) t⟩

theorem StepsMeet.and {Ok Ok' : S → A → Prop} {s : S} {acts : List A}
    (h : StepsMeet step Ok s acts) (h' : StepsMeet step Ok' s acts) :
    StepsMeet step (fun s a => Ok s a ∧ Ok' s a) s acts := by
  induction acts generalizing s with
  | nil => trivial
  | cons a acts ih =>
    exact ⟨⟨h.1, h'.1⟩, fun t ht => ih (h.2 t ht) (h'.2 t ht)⟩

/-- A condition that an invariant and the met condition give. -/
theorem StepsMeet.of_preserve {P : S → Prop} {Ok Ok' : S → A → Prop}
    (hstep : ∀ {s s' a}, P s → Ok s a → step s a = some s' → P s')
    (hok : ∀ {s a}, P s → Ok s a → Ok' s a) {s : S} {acts : List A} (hs : P s)
    (hmeet : StepsMeet step Ok s acts) : StepsMeet step Ok' s acts := by
  induction acts generalizing s with
  | nil => trivial
  | cons a acts ih => exact ⟨hok hs hmeet.1, fun t ht => ih (hstep hs hmeet.1 ht) (hmeet.2 t ht)⟩

/-- A run that does not meet a condition takes a step that does not. -/
theorem exists_not_of_not_stepsMeet {Ok : S → A → Prop} {s s' : S} {acts : List A}
    (hrun : runs step s acts = some s') (h : ¬StepsMeet step Ok s acts) :
    ∃ before a after t, acts = before ++ a :: after ∧ runs step s before = some t ∧ ¬Ok t a := by
  induction acts generalizing s with
  | nil => exact absurd trivial h
  | cons a acts ih =>
    obtain ⟨t, ht, hrest⟩ := runs_cons.mp hrun
    by_cases hok : Ok s a
    · have hnext : ¬StepsMeet step Ok t acts := by
        intro hmeet
        apply h
        refine ⟨hok, fun u hu => ?_⟩
        rw [ht, Option.some.injEq] at hu
        rw [← hu]
        exact hmeet
      obtain ⟨before, b, after, u, hacts, hu, hb⟩ := ih hrest hnext
      refine ⟨a :: before, b, after, u, by rw [hacts, List.cons_append], ?_, hb⟩
      exact runs_cons.mpr ⟨t, ht, hu⟩
    · exact ⟨[], a, acts, s, rfl, rfl, hok⟩

theorem runs_invariant {P : S → Prop} (hstep : ∀ {s s' a}, P s → step s a = some s' → P s')
    {s s' : S} {acts : List A} (hs : P s) (hrun : runs step s acts = some s') : P s' := by
  have hmeet : StepsMeet step (fun _ _ => True) s acts :=
    stepsMeet_of_forall (fun _ _ _ => trivial) s
  exact runs_preserve (fun hp _ h => hstep hp h) hs hmeet hrun

/-- Where a step from a good state ends in a good state if and only if it meets the condition, a run
from a good state stays in good states if and only if its steps meet it. -/
theorem runs_iff_stepsMeet {I P : S → Prop} {Ok : S → A → Prop}
    (hkeep : ∀ {s s' a}, I s → step s a = some s' → I s')
    (hstep : ∀ {s s' a}, I s → P s → step s a = some s' → (P s' ↔ Ok s a)) {s s' : S}
    {acts : List A} (hinv : I s) (hs : P s) (hrun : runs step s acts = some s') :
    (∀ before after t, acts = before ++ after → runs step s before = some t → P t) ↔
      StepsMeet step Ok s acts := by
  constructor
  · intro hgood
    induction acts generalizing s with
    | nil => trivial
    | cons a acts ih =>
      obtain ⟨t, ht, hrest⟩ := runs_cons.mp hrun
      have hnext : P t := hgood [a] acts t rfl (runs_cons.mpr ⟨t, ht, rfl⟩)
      refine ⟨(hstep hinv hs ht).mp hnext, fun u hu => ?_⟩
      rw [ht, Option.some.injEq] at hu
      rw [← hu]
      exact ih (hkeep hinv ht) hnext hrest fun before after v hacts hv =>
        hgood (a :: before) after v (by rw [hacts, List.cons_append]) (runs_cons.mpr ⟨t, ht, hv⟩)
  · intro hmeet before
    induction before generalizing s acts with
    | nil =>
      intro after t _ ht
      rw [← Option.some.inj ht]
      exact hs
    | cons a before ih =>
      rintro after t rfl ht
      obtain ⟨u, hu, hrest⟩ := runs_cons.mp ht
      obtain ⟨v, hv, hrun⟩ := runs_cons.mp hrun
      have heq : v = u := Option.some.inj (hv.symm.trans hu)
      rw [heq] at hrun
      exact ih (hkeep hinv hu) ((hstep hinv hs hu).mpr hmeet.1) hrun (hmeet.2 u hu) after t rfl
        hrest

instance StepsMeet.decidable (Ok : S → A → Prop) [∀ s a, Decidable (Ok s a)] :
    ∀ (s : S) (acts : List A), Decidable (StepsMeet step Ok s acts)
  | _, [] => isTrue trivial
  | s, a :: acts =>
    match h : step s a with
    | none =>
      decidable_of_iff (Ok s a)
        ⟨fun hok => ⟨hok, fun t ht => absurd (h.symm.trans ht) (by simp)⟩, fun hmeet => hmeet.1⟩
    | some t =>
      have := StepsMeet.decidable Ok t acts
      decidable_of_iff (Ok s a ∧ StepsMeet step Ok t acts)
        ⟨fun hmeet => ⟨hmeet.1, fun u hu => by
            rw [h, Option.some.injEq] at hu
            rw [← hu]
            exact hmeet.2⟩,
          fun hmeet => ⟨hmeet.1, hmeet.2 t h⟩⟩

end Runs

end ShieldReduce.Lib
