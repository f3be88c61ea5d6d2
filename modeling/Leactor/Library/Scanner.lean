import Leactor.Library.Memory

/-! Scanning machines: a machine is shown one symbol after another, with its
position, and goes on in a new state or halts with a result. -/
namespace Scan

open Memory

variable {α σ ρ τ κ : Type*}

inductive Verdict (σ ρ : Type*) where
  | next (s : σ)
  | halt (r : ρ)

/-- A machine sees the position, its state and the symbol at the position. -/
abbrev Machine (α σ ρ : Type*) := Nat → σ → α → Verdict σ ρ

/-- How a scan ends: out of symbols, or halted at a position. -/
inductive Outcome (σ ρ : Type*) where
  | pending (s : σ)
  | halted (pos : Nat) (r : ρ)

/-- Feed a word to a machine, its first symbol at position `p`. -/
def run (M : Machine α σ ρ) (p : Nat) (s : σ) : List α → Outcome σ ρ
  | [] => .pending s
  | c :: cs =>
      match M p s c with
      | .next s' => run M (p + 1) s' cs
      | .halt r => .halted p r

/-- `P` of the state a verdict goes on with, `Q` of the result it halts with. -/
def Verdict.All (P : σ → Prop) (Q : ρ → Prop) : Verdict σ ρ → Prop
  | .next s => P s
  | .halt r => Q r

/-- `P` of the state left when the word ends, `Q` of the halting position and result. -/
def Outcome.All (P : σ → Prop) (Q : Nat → ρ → Prop) : Outcome σ ρ → Prop
  | .pending s => P s
  | .halted p r => Q p r

/-- Two verdicts that both go on, in related states, or both halt, with related results. -/
def Verdict.Rel (R : σ → τ → Prop) (S : ρ → κ → Prop) : Verdict σ ρ → Verdict τ κ → Prop
  | .next s, .next t => R s t
  | .halt r, .halt k => S r k
  | _, _ => False

/-- Two outcomes that are both pending, in related states, or both halted, with
related positions and results. -/
def Outcome.Rel (R : σ → τ → Prop) (S : Nat → ρ → Nat → κ → Prop) : Outcome σ ρ → Outcome τ κ → Prop
  | .pending s, .pending t => R s t
  | .halted p r, .halted q k => S p r q k
  | _, _ => False

/-- A verdict reached by a test is judged on both sides of the test. -/
theorem Verdict.all_ite {P : σ → Prop} {Q : ρ → Prop} {c : Prop} [Decidable c] {v w : Verdict σ ρ}
    (hThen : c → v.All P Q) (hElse : ¬ c → w.All P Q) : (if c then v else w).All P Q := by
  split_ifs with h
  · exact hThen h
  · exact hElse h

/-- Verdicts reached by one test are related if they are on both sides of it. -/
theorem Verdict.rel_ite {R : σ → τ → Prop} {S : ρ → κ → Prop} {c : Prop} [Decidable c]
    {v w : Verdict σ ρ} {v' w' : Verdict τ κ} (hThen : c → v.Rel R S v') (hElse : ¬ c → w.Rel R S w') :
    (if c then v else w).Rel R S (if c then v' else w') := by
  split_ifs with h
  · exact hThen h
  · exact hElse h

variable {M : Machine α σ ρ}

@[simp] theorem run_nil (p : Nat) (s : σ) : run M p s [] = .pending s := rfl

theorem run_cons_next {p : Nat} {s s' : σ} {c : α} (cs : List α) (h : M p s c = .next s') :
    run M p s (c :: cs) = run M (p + 1) s' cs := by
  simp [run, h]

theorem run_cons_halt {p : Nat} {s : σ} {c : α} {r : ρ} (cs : List α) (h : M p s c = .halt r) :
    run M p s (c :: cs) = .halted p r := by
  simp [run, h]

/-- A machine that was stopped for lack of symbols can be resumed. -/
theorem run_append_of_pending {p : Nat} {s s' : σ} {xs : List α} (ys : List α)
    (h : run M p s xs = .pending s') :
    run M p s (xs ++ ys) = run M (p + xs.length) s' ys := by
  induction xs generalizing p s with
  | nil =>
      cases h
      rfl
  | cons c cs ih =>
      simp only [List.cons_append, run] at h ⊢
      cases hStep : M p s c with
      | next t =>
          simp only [hStep] at h ⊢
          rw [ih h, List.length_cons]
          congr 1
          omega
      | halt r => simp [hStep] at h

/-- A machine that halted never sees what follows. -/
theorem run_append_of_halted {p q : Nat} {s : σ} {r : ρ} {xs : List α} (ys : List α)
    (h : run M p s xs = .halted q r) : run M p s (xs ++ ys) = .halted q r := by
  induction xs generalizing p s with
  | nil => cases h
  | cons c cs ih =>
      simp only [List.cons_append, run] at h ⊢
      cases hStep : M p s c with
      | next t =>
          rw [hStep] at h
          exact ih h
      | halt r' => simpa [hStep] using h

/-- A run that halted did so on one symbol, after a prefix that left it pending. -/
theorem exists_prefix_of_halted {p q : Nat} {s : σ} {r : ρ} {w : List α}
    (h : run M p s w = .halted q r) :
    ∃ xs c ys t, w = xs ++ c :: ys ∧ q = p + xs.length ∧ run M p s xs = .pending t ∧
      M q t c = .halt r := by
  induction w generalizing p s with
  | nil => cases h
  | cons c cs ih =>
      rw [run] at h
      cases hStep : M p s c with
      | next s' =>
          rw [hStep] at h
          obtain ⟨xs, c', ys, t, rfl, rfl, hRun, hHalt⟩ := ih h
          refine ⟨c :: xs, c', ys, t, rfl, ?_, ?_, hHalt⟩
          · rw [List.length_cons]
            omega
          · rw [run_cons_next xs hStep, hRun]
      | halt r' =>
          rw [hStep] at h
          cases h
          exact ⟨[], c, cs, s, rfl, rfl, rfl, hStep⟩

/-- Symbols on which the machine keeps its state do not matter. -/
theorem run_const {p : Nat} {s : σ} {w : List α}
    (h : ∀ q, ∀ c ∈ w, M q s c = .next s) : run M p s w = .pending s := by
  induction w generalizing p with
  | nil => rfl
  | cons c cs ih =>
      rw [run_cons_next cs (h p c List.mem_cons_self)]
      exact ih fun q d hd => h q d (List.mem_cons_of_mem c hd)

/-- A machine whose steps on a word fold the symbols into its state. -/
theorem run_foldl {β : Type*} (g : β → σ) {f : β → α → β} {p : Nat} {a : β} {w : List α}
    (h : ∀ q a, ∀ c ∈ w, M q (g a) c = .next (g (f a c))) :
    run M p (g a) w = .pending (g (w.foldl f a)) := by
  induction w generalizing p a with
  | nil => rfl
  | cons c cs ih =>
      rw [run_cons_next cs (h p a c List.mem_cons_self), List.foldl_cons]
      exact ih fun q b d hd => h q b d (List.mem_cons_of_mem c hd)

/-- A machine that no symbol of the word halts is pending, with what its steps keep. -/
theorem run_keeps {I : σ → Prop} {p : Nat} {s : σ} {w : List α}
    (hStep : ∀ q s, ∀ c ∈ w, I s → ∃ t, M q s c = .next t ∧ I t) (h : I s) :
    ∃ t, run M p s w = .pending t ∧ I t := by
  induction w generalizing p s with
  | nil => exact ⟨s, rfl, h⟩
  | cons c cs ih =>
      obtain ⟨t, hMove, hKept⟩ := hStep p s c List.mem_cons_self h
      rw [run_cons_next cs hMove]
      exact ih (fun q u d hd => hStep q u d (List.mem_cons_of_mem c hd)) hKept

/-- What holds at the start and is kept by every step holds wherever the run ends. -/
theorem run_all {I : σ → Prop} {Q : Nat → ρ → Prop} {p : Nat} {s : σ} {w : List α}
    (hStep : ∀ q s c, I s → (M q s c).All I (Q q)) (h : I s) : (run M p s w).All I Q := by
  induction w generalizing p s with
  | nil => exact h
  | cons c cs ih =>
      have hHere := hStep p s c h
      cases hMove : M p s c with
      | next t =>
          rw [hMove] at hHere
          rw [run_cons_next cs hMove]
          exact ih hHere
      | halt r =>
          rw [hMove] at hHere
          rw [run_cons_halt cs hMove]
          exact hHere

/-- Invariants over a word held in memory: the symbol at `x` is `m x`, and the
state there is the one that the symbols before `x` lead to. -/
theorem run_slice_all {m : Nat → α} {p q : Nat} {s : σ} {I : Nat → σ → Prop} {Q : Nat → ρ → Prop}
    (hStep : ∀ x t, p ≤ x → x < q → run M p s (slice m p x) = .pending t → I x t →
      (M x t (m x)).All (I (x + 1)) (Q x))
    (hpq : p ≤ q) (h : I p s) :
    (run M p s (slice m p q)).All (I q) fun x r => p ≤ x ∧ x < q ∧ Q x r := by
  induction q, hpq using Nat.le_induction with
  | base => simpa [Outcome.All] using h
  | succ q hpq ih =>
      have hRest := ih fun x t hLow hHigh => hStep x t hLow (Nat.lt_succ_of_lt hHigh)
      rw [slice_succ hpq]
      cases hRun : run M p s (slice m p q) with
      | pending t =>
          rw [hRun] at hRest
          have hHere := hStep q t hpq (Nat.lt_succ_self q) hRun hRest
          rw [run_append_of_pending _ hRun, length_slice, Nat.add_sub_cancel' hpq]
          cases hMove : M q t (m q) with
          | next u =>
              rw [hMove] at hHere
              rw [run_cons_next _ hMove]
              exact hHere
          | halt r =>
              rw [hMove] at hHere
              rw [run_cons_halt _ hMove]
              exact ⟨hpq, Nat.lt_succ_self q, hHere⟩
      | halted x r =>
          rw [hRun] at hRest
          rw [run_append_of_halted _ hRun]
          exact ⟨hRest.1, Nat.lt_succ_of_lt hRest.2.1, hRest.2.2⟩

/-- Two machines run in lockstep on one word, at a fixed distance. The relation of their
states may depend on how much of the word has been read. -/
theorem run_sim {N : Machine α τ κ} {R : Nat → σ → τ → Prop} {S : Nat → ρ → κ → Prop} {p q n : Nat}
    {s : σ} {t : τ} {w : List α}
    (hStep : ∀ i, i < n + w.length → ∀ s t, ∀ c ∈ w, R i s t →
      (M (p + i) s c).Rel (R (i + 1)) (S i) (N (q + i) t c))
    (h : R n s t) :
    (run M (p + n) s w).Rel (R (n + w.length))
      (fun x r y k => ∃ i, i < n + w.length ∧ x = p + i ∧ y = q + i ∧ S i r k) (run N (q + n) t w) := by
  induction w generalizing n s t with
  | nil => exact h
  | cons c cs ih =>
      rw [List.length_cons, show n + (cs.length + 1) = n + 1 + cs.length by omega] at hStep ⊢
      have hHere := hStep n (by omega) s t c List.mem_cons_self h
      cases hM : M (p + n) s c with
      | next s' =>
          cases hN : N (q + n) t c with
          | next t' =>
              rw [hM, hN] at hHere
              rw [run_cons_next cs hM, run_cons_next cs hN, Nat.add_assoc p, Nat.add_assoc q]
              exact ih (fun i hi u v d hd => hStep i hi u v d (List.mem_cons_of_mem c hd)) hHere
          | halt k =>
              rw [hM, hN] at hHere
              exact hHere.elim
      | halt r =>
          cases hN : N (q + n) t c with
          | next t' =>
              rw [hM, hN] at hHere
              exact hHere.elim
          | halt k =>
              rw [hM, hN] at hHere
              rw [run_cons_halt cs hM, run_cons_halt cs hN]
              exact ⟨n, by omega, rfl, rfl, hHere⟩

/-- A word and one more symbol leave a machine pending if the symbol does so behind the word. -/
theorem run_concat {p : Nat} {s u : σ} {w : List α} {c : α} :
    run M p s (w ++ [c]) = .pending u ↔ ∃ t, run M p s w = .pending t ∧ M (p + w.length) t c = .next u := by
  cases hRun : run M p s w with
  | pending t =>
      rw [run_append_of_pending _ hRun, run]
      cases hStep : M (p + w.length) t c with
      | next t' =>
          simp only [run_nil, Outcome.pending.injEq, exists_eq_left', hStep, Verdict.next.injEq]
      | halt r => simp [hStep]
  | halted q r =>
      rw [run_append_of_halted _ hRun]
      simp

/-- What a machine reports of the symbols it is shown. -/
def trace (M : Machine α σ ρ) (report : σ → α → List κ) (p : Nat) (s : σ) : List α → List κ
  | [] => []
  | c :: cs =>
      report s c ++ match M p s c with
        | .next s' => trace M report (p + 1) s' cs
        | .halt _ => []

theorem trace_append_of_pending {report : σ → α → List κ} {p : Nat} {s t : σ} {xs : List α} (ys : List α)
    (h : run M p s xs = .pending t) :
    trace M report p s (xs ++ ys) = trace M report p s xs ++ trace M report (p + xs.length) t ys := by
  induction xs generalizing p s with
  | nil =>
      cases h
      rfl
  | cons c cs ih =>
      cases hStep : M p s c with
      | next s' =>
          rw [run_cons_next cs hStep] at h
          rw [List.cons_append, trace, trace, hStep, List.length_cons,
            show p + (cs.length + 1) = p + 1 + cs.length by omega]
          simp only [ih h, List.append_assoc]
      | halt r =>
          rw [run_cons_halt cs hStep] at h
          cases h

/-- The symbol behind a prefix that leaves the machine pending is reported in the state it leaves. -/
theorem mem_trace {report : σ → α → List κ} {p : Nat} {s : σ} {w : List α} {a : κ} :
    a ∈ trace M report p s w ↔
      ∃ xs c ys t, w = xs ++ c :: ys ∧ run M p s xs = .pending t ∧ a ∈ report t c := by
  induction w generalizing p s with
  | nil => simp [trace]
  | cons d ds ih =>
      rw [trace, List.mem_append]
      constructor
      · rintro (hHere | hLater)
        · exact ⟨[], d, ds, s, rfl, rfl, hHere⟩
        · cases hStep : M p s d with
          | halt r =>
              rw [hStep] at hLater
              exact absurd hLater (List.not_mem_nil)
          | next s' =>
              rw [hStep] at hLater
              obtain ⟨xs, c, ys, t, rfl, hRun, hMem⟩ := ih.mp hLater
              exact ⟨d :: xs, c, ys, t, rfl, by rw [run_cons_next xs hStep, hRun], hMem⟩
      · rintro ⟨xs, c, ys, t, hWord, hRun, hMem⟩
        cases xs with
        | nil =>
            cases hRun
            obtain ⟨rfl, -⟩ := List.cons.inj hWord
            exact Or.inl hMem
        | cons x xs =>
            obtain ⟨rfl, rfl⟩ := List.cons.inj hWord
            cases hStep : M p s d with
            | halt r =>
                rw [run_cons_halt xs hStep] at hRun
                cases hRun
            | next s' =>
                rw [run_cons_next xs hStep] at hRun
                exact Or.inr (ih.mpr ⟨xs, c, ys, t, rfl, hRun, hMem⟩)

end Scan
