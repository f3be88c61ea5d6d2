import Mathlib.Tactic

/-! Loops whose termination is not known in advance: a turn goes on in a new
state or leaves the loop. -/
namespace Loop

variable {σ ρ : Type*}

inductive Turn (σ ρ : Type*) where
  | again (s : σ)
  | exit (r : ρ)

def iterate (f : σ → Turn σ ρ) : Nat → σ → Turn σ ρ
  | 0, s => .again s
  | n + 1, s =>
      match f s with
      | .again s' => iterate f n s'
      | .exit r => .exit r

/-- The loop leaves with this result after some number of turns. -/
def Returns (f : σ → Turn σ ρ) (s : σ) (r : ρ) : Prop := ∃ n, iterate f n s = .exit r

/-- The loop comes by a state after some number of turns. -/
def Reaches (f : σ → Turn σ ρ) (s t : σ) : Prop := ∃ n, iterate f n s = .again t

def Terminates (f : σ → Turn σ ρ) (s : σ) : Prop := ∃ r, Returns f s r

variable {f : σ → Turn σ ρ}

/-- More turns do not change the result of a loop that has left. -/
theorem iterate_exit_mono {n m : Nat} {s : σ} {r : ρ} (h : iterate f n s = .exit r) (hLe : n ≤ m) :
    iterate f m s = .exit r := by
  induction n generalizing s m with
  | zero => cases h
  | succ n ih =>
      obtain ⟨m, rfl⟩ := Nat.exists_eq_add_of_le' (by omega : 1 ≤ m)
      rw [iterate] at h ⊢
      cases hTurn : f s with
      | again s' =>
          rw [hTurn] at h
          exact ih h (by omega)
      | exit r' =>
          rw [hTurn] at h
          exact h

theorem Returns.unique {s : σ} {r r' : ρ} (h : Returns f s r) (h' : Returns f s r') : r = r' := by
  obtain ⟨n, hn⟩ := h
  obtain ⟨m, hm⟩ := h'
  have hLeft := iterate_exit_mono hn (Nat.le_max_left n m)
  rw [iterate_exit_mono hm (Nat.le_max_right n m)] at hLeft
  exact (Turn.exit.inj hLeft).symm

/-- A loop that returns does so for every number of turns that is large enough. -/
theorem returns_iff_eventually {s : σ} {r : ρ} : Returns f s r ↔ ∃ n, ∀ m, n ≤ m → iterate f m s = .exit r := by
  constructor
  · rintro ⟨n, hn⟩
    exact ⟨n, fun m hLe => iterate_exit_mono hn hLe⟩
  · rintro ⟨n, hn⟩
    exact ⟨n, hn n (le_refl n)⟩

theorem returns_of_exit {s : σ} {r : ρ} (h : f s = .exit r) : Returns f s r :=
  ⟨1, by simp [iterate, h]⟩

theorem returns_again_iff {s s' : σ} {r : ρ} (h : f s = .again s') :
    Returns f s r ↔ Returns f s' r := by
  constructor
  · rintro ⟨_ | n, hn⟩
    · cases hn
    · exact ⟨n, by simpa [iterate, h] using hn⟩
  · rintro ⟨n, hn⟩
    exact ⟨n + 1, by simpa [iterate, h] using hn⟩

theorem Reaches.refl (s : σ) : Reaches f s s := ⟨0, rfl⟩

theorem Reaches.head {s s' t : σ} (h : f s = .again s') (hRest : Reaches f s' t) : Reaches f s t := by
  obtain ⟨n, hn⟩ := hRest
  exact ⟨n + 1, by rw [iterate, h]; exact hn⟩

theorem Reaches.trans {s t u : σ} (h : Reaches f s t) (h' : Reaches f t u) : Reaches f s u := by
  obtain ⟨n, hn⟩ := h
  induction n generalizing s with
  | zero =>
      cases hn
      exact h'
  | succ n ih =>
      rw [iterate] at hn
      cases hTurn : f s with
      | again s' =>
          rw [hTurn] at hn
          exact .head hTurn (ih hn)
      | exit r =>
          rw [hTurn] at hn
          cases hn

theorem Reaches.returns {s t : σ} {r : ρ} (h : Reaches f s t) (hRest : Returns f t r) :
    Returns f s r := by
  obtain ⟨n, hn⟩ := h
  induction n generalizing s with
  | zero =>
      cases hn
      exact hRest
  | succ n ih =>
      rw [iterate] at hn
      cases hTurn : f s with
      | again s' =>
          rw [hTurn] at hn
          exact (returns_again_iff hTurn).mpr (ih hn)
      | exit r' =>
          rw [hTurn] at hn
          cases hn

theorem Reaches.of_returns {s t : σ} {r : ρ} (h : Reaches f s t) (hRun : Returns f s r) : Returns f t r := by
  obtain ⟨n, hn⟩ := h
  induction n generalizing s with
  | zero =>
      cases hn
      exact hRun
  | succ n ih =>
      rw [iterate] at hn
      cases hTurn : f s with
      | again s' =>
          rw [hTurn] at hn
          exact ih ((returns_again_iff hTurn).mp hRun) hn
      | exit r' =>
          rw [hTurn] at hn
          cases hn

/-! The record of a loop whose turns put something out. -/
section Output

variable {β : Type*} {out : σ → List β}

def outputs (f : σ → Turn σ ρ) (out : σ → List β) : Nat → σ → List β
  | 0, _ => []
  | n + 1, s =>
      out s ++ match f s with
        | .again s' => outputs f out n s'
        | .exit _ => []

/-- The loop comes by `t`, and has put out `log` by then. -/
def ReachesWith (f : σ → Turn σ ρ) (out : σ → List β) (s t : σ) (log : List β) : Prop :=
  ∃ n, iterate f n s = .again t ∧ outputs f out n s = log

/-- The loop leaves with `r`, and its turns have put out `log`. -/
def ReturnsWith (f : σ → Turn σ ρ) (out : σ → List β) (s : σ) (r : ρ) (log : List β) : Prop :=
  ∃ n, iterate f n s = .exit r ∧ outputs f out n s = log

theorem ReachesWith.refl (s : σ) : ReachesWith f out s s [] := ⟨0, rfl, rfl⟩

theorem ReachesWith.head {s s' t : σ} {log : List β} (h : f s = .again s')
    (hRest : ReachesWith f out s' t log) : ReachesWith f out s t (out s ++ log) := by
  obtain ⟨n, hn, rfl⟩ := hRest
  exact ⟨n + 1, by rw [iterate, h]; exact hn, by rw [outputs, h]⟩

theorem ReturnsWith.head {s s' : σ} {r : ρ} {log : List β} (h : f s = .again s')
    (hRest : ReturnsWith f out s' r log) : ReturnsWith f out s r (out s ++ log) := by
  obtain ⟨n, hn, rfl⟩ := hRest
  exact ⟨n + 1, by rw [iterate, h]; exact hn, by rw [outputs, h]⟩

theorem ReturnsWith.of_exit {s : σ} {r : ρ} (h : f s = .exit r) : ReturnsWith f out s r (out s) :=
  ⟨1, by rw [iterate, h], by rw [outputs, h, List.append_nil]⟩

theorem ReachesWith.trans {s t u : σ} {log log' : List β} (h : ReachesWith f out s t log)
    (hRest : ReachesWith f out t u log') : ReachesWith f out s u (log ++ log') := by
  obtain ⟨n, hn, rfl⟩ := h
  induction n generalizing s with
  | zero =>
      cases hn
      exact hRest
  | succ n ih =>
      rw [iterate] at hn
      cases hTurn : f s with
      | again s' =>
          rw [hTurn] at hn
          rw [outputs, hTurn, List.append_assoc]
          exact .head hTurn (ih hn)
      | exit r =>
          rw [hTurn] at hn
          cases hn

theorem ReachesWith.returns {s t : σ} {r : ρ} {log log' : List β} (h : ReachesWith f out s t log)
    (hRest : ReturnsWith f out t r log') : ReturnsWith f out s r (log ++ log') := by
  obtain ⟨n, hn, rfl⟩ := h
  induction n generalizing s with
  | zero =>
      cases hn
      exact hRest
  | succ n ih =>
      rw [iterate] at hn
      cases hTurn : f s with
      | again s' =>
          rw [hTurn] at hn
          rw [outputs, hTurn, List.append_assoc]
          exact .head hTurn (ih hn)
      | exit r =>
          rw [hTurn] at hn
          cases hn

/-- A loop that leaves has one result and one record. -/
theorem ReturnsWith.unique {s : σ} {r r' : ρ} {log log' : List β} (h : ReturnsWith f out s r log)
    (h' : ReturnsWith f out s r' log') : r = r' ∧ log = log' := by
  obtain ⟨n, hn, rfl⟩ := h
  obtain ⟨m, hm, rfl⟩ := h'
  induction n generalizing s m with
  | zero => cases hn
  | succ n ih =>
      cases m with
      | zero => cases hm
      | succ m =>
          rw [iterate] at hn hm
          rw [outputs, outputs]
          cases hTurn : f s with
          | again s' =>
              rw [hTurn] at hn hm
              obtain ⟨hResult, hLog⟩ := ih hn m hm
              exact ⟨hResult, congrArg (out s ++ ·) hLog⟩
          | exit r =>
              rw [hTurn] at hn hm
              exact ⟨Turn.exit.inj (hn.symm.trans hm), rfl⟩

end Output

/-- A loop that keeps an invariant under which no turn leaves never leaves. -/
theorem not_terminates_of_inv {I : σ → Prop} (hStep : ∀ s, I s → ∃ s', f s = .again s' ∧ I s')
    {s : σ} (h : I s) : ¬ Terminates f s := by
  rintro ⟨r, n, hn⟩
  induction n generalizing s with
  | zero => cases hn
  | succ n ih =>
      obtain ⟨s', hTurn, hNext⟩ := hStep s h
      rw [iterate, hTurn] at hn
      exact ih hNext hn

/-- What holds at the start and is kept by every turn holds when the loop leaves. -/
theorem Returns.all {I : σ → Prop} {Q : ρ → Prop} {s : σ} {r : ρ} (hRun : Returns f s r)
    (hAgain : ∀ s s', I s → f s = .again s' → I s') (hExit : ∀ s r, I s → f s = .exit r → Q r) (h : I s) :
    Q r := by
  obtain ⟨n, hn⟩ := hRun
  induction n generalizing s with
  | zero => cases hn
  | succ n ih =>
      rw [iterate] at hn
      cases hTurn : f s with
      | again s' =>
          rw [hTurn] at hn
          exact ih (hAgain s s' h hTurn) hn
      | exit r' =>
          rw [hTurn] at hn
          cases hn
          exact hExit s r h hTurn

end Loop
