import Mathlib.Tactic

/-! Runs of a state machine whose steps are guarded by the state before them. -/
namespace Run

variable {σ α : Type*}

/-- The states that guarded steps lead to. -/
inductive Reach (step : σ → α → σ) (guard : σ → α → Prop) (start : σ) : σ → Prop where
  | start : Reach step guard start start
  | next {s : σ} (a : α) (prior : Reach step guard start s) (hGuard : guard s a) :
      Reach step guard start (step s a)

variable {step : σ → α → σ} {guard : σ → α → Prop} {start s : σ}

/-- What holds at the start and is kept by every guarded step holds in every state of a run. -/
theorem Reach.all {I : σ → Prop} (h : Reach step guard start s) (hStart : I start)
    (hStep : ∀ s a, I s → guard s a → I (step s a)) : I s := by
  induction h with
  | start => exact hStart
  | next a _ hGuard ih => exact hStep _ a ih hGuard

theorem Reach.mono {guard' : σ → α → Prop} (h : Reach step guard start s)
    (hGuard : ∀ s a, guard s a → guard' s a) : Reach step guard' start s := by
  induction h with
  | start => exact .start
  | next a _ hHere ih => exact .next a ih (hGuard _ a hHere)

/-- The states that guarded steps lead to, where a step may be a fault. -/
inductive Leads (step : σ → α → Option σ) (guard : σ → α → Prop) (start : σ) : σ → Prop where
  | start : Leads step guard start start
  | next {s s' : σ} (a : α) (prior : Leads step guard start s) (hGuard : guard s a) (hStep : step s a = some s') :
      Leads step guard start s'

theorem Leads.all {step : σ → α → Option σ} {I : σ → Prop} (h : Leads step guard start s) (hStart : I start)
    (hStep : ∀ s a s', I s → guard s a → step s a = some s' → I s') : I s := by
  induction h with
  | start => exact hStart
  | next a _ hGuard hHere ih => exact hStep _ a _ ih hGuard hHere

theorem Leads.mono {step : σ → α → Option σ} {guard' : σ → α → Prop} (h : Leads step guard start s)
    (hGuard : ∀ s a, guard s a → guard' s a) : Leads step guard' start s := by
  induction h with
  | start => exact .start
  | next a _ hHere hStep ih => exact .next a ih (hGuard _ a hHere) hStep

/-- The states that guarded steps of a relation lead to. -/
inductive Arrives (step : σ → α → σ → Prop) (guard : σ → α → Prop) (start : σ) : σ → Prop where
  | start : Arrives step guard start start
  | next {s s' : σ} (a : α) (prior : Arrives step guard start s) (hGuard : guard s a) (hStep : step s a s') :
      Arrives step guard start s'

theorem Arrives.all {step : σ → α → σ → Prop} {I : σ → Prop} (h : Arrives step guard start s) (hStart : I start)
    (hStep : ∀ s a s', I s → guard s a → step s a s' → I s') : I s := by
  induction h with
  | start => exact hStart
  | next a _ hGuard hHere ih => exact hStep _ a _ ih hGuard hHere

/-- The states that a row of guarded steps of a relation leads to. -/
inductive Trail (step : σ → α → σ → Prop) (guard : σ → α → Prop) : σ → List α → σ → Prop where
  | nil (s : σ) : Trail step guard s [] s
  | cons {s s' s'' : σ} {a : α} {as : List α} (hGuard : guard s a) (hStep : step s a s')
      (hRest : Trail step guard s' as s'') : Trail step guard s (a :: as) s''

section Trail

variable {step : σ → α → σ → Prop} {s' s'' : σ} {as bs : List α}

theorem Trail.arrives (h : Trail step guard s as s') (hStart : Arrives step guard start s) :
    Arrives step guard start s' := by
  induction h with
  | nil => exact hStart
  | cons hGuard hStep _ ih => exact ih (.next _ hStart hGuard hStep)

theorem Trail.append (h : Trail step guard s as s') (h' : Trail step guard s' bs s'') :
    Trail step guard s (as ++ bs) s'' := by
  induction h with
  | nil => exact h'
  | cons hGuard hStep _ ih => exact .cons hGuard hStep (ih h')

theorem Trail.split (h : Trail step guard s (as ++ bs) s'') :
    ∃ s', Trail step guard s as s' ∧ Trail step guard s' bs s'' := by
  induction as generalizing s with
  | nil => exact ⟨s, .nil s, h⟩
  | cons a as ih =>
      cases h with
      | cons hGuard hStep hRest =>
          obtain ⟨s', hFirst, hLast⟩ := ih hRest
          exact ⟨s', .cons hGuard hStep hFirst, hLast⟩

def StepOrStay (step : σ → α → σ → Prop) : Option α → σ → σ → Prop
  | some a, s, s' => step s a s'
  | none, s, s' => s' = s

/-- A machine whose steps are steps of another one, or nothing to it, is followed by the
other one on the steps that concern it. -/
theorem Trail.project {τ β : Type*} (step' : τ → β → τ → Prop) (own : α → Option β) {I : σ → Prop}
    {R : σ → τ → Prop} (h : Trail step guard s as s')
    (hStep : ∀ s a s' t, I s → guard s a → step s a s' → R s t →
      I s' ∧ ∃ t', R s' t' ∧ StepOrStay step' (own a) t t')
    {t : τ} (hStart : I s) (hRel : R s t) :
    ∃ t', Trail step' (fun _ _ => True) t (as.filterMap own) t' ∧ R s' t' := by
  induction h generalizing t with
  | nil => exact ⟨t, .nil t, hRel⟩
  | @cons s s₁ s'' a as hGuard hHere _ ih =>
      obtain ⟨hNext, t₁, hRel₁, hOwn⟩ := hStep s a s₁ t hStart hGuard hHere hRel
      obtain ⟨t', hRest, hRel'⟩ := ih hNext hRel₁
      cases hMine : own a with
      | none =>
          rw [hMine] at hOwn
          obtain rfl : t₁ = t := hOwn
          rw [List.filterMap_cons_none hMine]
          exact ⟨t', hRest, hRel'⟩
      | some b =>
          rw [hMine] at hOwn
          rw [List.filterMap_cons_some hMine]
          exact ⟨t', .cons trivial hOwn hRest, hRel'⟩

/-- The row of steps can be made, whichever way each step goes. -/
def Proceeds (step : σ → α → σ → Prop) : σ → List α → Prop
  | _, [] => True
  | s, a :: as => (∃ s', step s a s') ∧ ∀ s', step s a s' → Proceeds step s' as

theorem Proceeds.append (h : Proceeds step s as)
    (hRest : ∀ s', Trail step (fun _ _ => True) s as s' → Proceeds step s' bs) : Proceeds step s (as ++ bs) := by
  induction as generalizing s with
  | nil => exact hRest s (.nil s)
  | cons a as ih =>
      exact ⟨h.1, fun s' hStep => ih (h.2 s' hStep) fun t hTrail => hRest t (.cons trivial hStep hTrail)⟩

/-- A machine that can follow every step of another one follows a row of them. -/
theorem Proceeds.lift {τ β : Type*} {step' : τ → β → τ → Prop} (inj : β → α) {R : σ → τ → Prop} {t : τ} {bs : List β}
    (h : Proceeds step' t bs)
    (hStep : ∀ s t b t', b ∈ bs → R s t → step' t b t' →
      ∃ s₁ t₁, guard s (inj b) ∧ step s (inj b) s₁ ∧ step' t b t₁ ∧ R s₁ t₁)
    (hRel : R s t) :
    ∃ s' t', Trail step guard s (bs.map inj) s' ∧ Trail step' (fun _ _ => True) t bs t' ∧ R s' t' := by
  induction bs generalizing s t with
  | nil => exact ⟨s, t, .nil s, .nil t, hRel⟩
  | cons b bs ih =>
      obtain ⟨⟨t', hFirst⟩, hRest⟩ := h
      obtain ⟨s₁, t₁, hGuard, hHere, hOther, hRel₁⟩ := hStep s t b t' List.mem_cons_self hRel hFirst
      obtain ⟨s', t'', hTrail, hTrail', hRel'⟩ := ih (hRest t₁ hOther)
        (fun s t b t' hMem => hStep s t b t' (List.mem_cons_of_mem _ hMem)) hRel₁
      exact ⟨s', t'', .cons hGuard hHere hTrail, .cons trivial hOther hTrail', hRel'⟩

end Trail

end Run
