import Leactor.Http.Relay

/-! The host that `http_process_host` leaves: what it rejects, where it cuts, and
the hosts for which the part it keeps is in normal form. -/
namespace Leactor

open Ascii Scan Memory

structure HostClean (w : List UInt8) : Prop where
  noNul : nul ∉ w
  noSlash : slash ∉ w
  noDots : w.IsChain fun c d => c = dot → d ≠ dot

structure HostNormal (w : List UInt8) : Prop where
  nonempty : w ≠ []
  clean : HostClean w
  noTrailingDot : w.getLast? ≠ some dot
  noPort : w.head? ≠ some lbracket → colon ∉ w

/-- Where a host is cut: `x` is kept, up to a dot at its end, and `y` is not. -/
inductive HostCut : HostState → List UInt8 → List UInt8 → Prop where
  | usual {x : List UInt8} (hColon : colon ∉ x) (hHead : x.head? ≠ some lbracket) : HostCut .usual x []
  | literal {x : List UInt8} (hBracket : rbracket ∉ x) : HostCut .literal (lbracket :: x) []
  | port {x : List UInt8} (y : List UInt8) (hColon : colon ∉ x) (hHead : x.head? ≠ some lbracket) :
      HostCut .rest x (colon :: y)
  | closed {x : List UInt8} (y : List UInt8) (hBracket : rbracket ∉ x) :
      HostCut .rest (lbracket :: (x ++ [rbracket])) y

/-- The locals of `http_process_host` after the first bytes `w` of a host of length `n`. -/
structure HostTrace (n : Nat) (w : List UInt8) (σ : HostScan) : Prop where
  clean : HostClean w
  dots : (dot ∉ w ∧ σ.dotPos = n) ∨ ∃ p q, w = p ++ dot :: q ∧ dot ∉ q ∧ σ.dotPos = p.length
  cut : ∃ x y, w = x ++ y ∧ HostCut σ.state x y ∧
    σ.hostLen = if σ.state = .rest then x.length else n

/-- One dot stands right before the first colon and another one behind it. The
test for a trailing dot looks at the last one only. -/
def KeepsDot (w : List UInt8) : Prop :=
  w.head? ≠ some lbracket ∧ ∃ a b, w = a ++ dot :: colon :: b ∧ colon ∉ a ∧ dot ∈ b

theorem toSize_pred {n : Nat} (h : n < 2 ^ 31) :
    toSize ((n : Int) - 1) = if n = 0 then 2 ^ 64 - 1 else n - 1 := by
  unfold toSize
  split_ifs <;> omega

/-- What stands before the last occurrence of a byte. -/
theorem append_cons_inj_of_last {p q x y : List UInt8} {c : UInt8} (hq : c ∉ q) (hy : c ∉ y)
    (h : p ++ c :: q = x ++ c :: y) : p = x := by
  rcases List.append_eq_append_iff.mp h with ⟨a, rfl, ha⟩ | ⟨a, rfl, ha⟩
  all_goals
    cases a with
    | nil => simp
    | cons d a =>
        rw [List.cons_append, List.cons.injEq] at ha
        simp [ha.2] at hq hy

/-- What stands around the first occurrence of a byte. -/
theorem append_cons_inj_of_first {p q x y : List UInt8} {c : UInt8} (hp : c ∉ p) (hx : c ∉ x)
    (h : p ++ c :: q = x ++ c :: y) : p = x ∧ q = y := by
  rcases List.append_eq_append_iff.mp h with ⟨a, rfl, ha⟩ | ⟨a, rfl, ha⟩
  all_goals
    cases a with
    | nil => simpa [eq_comm] using ha
    | cons d a =>
        rw [List.cons_append, List.cons.injEq] at ha
        simp [ha.1] at hp hx

namespace HostClean

theorem nil : HostClean [] := ⟨List.not_mem_nil, List.not_mem_nil, .nil⟩

theorem take {v y : List UInt8} (h : HostClean (v ++ y)) : HostClean v where
  noNul hMem := h.noNul (List.mem_append_left _ hMem)
  noSlash hMem := h.noSlash (List.mem_append_left _ hMem)
  noDots := h.noDots.left_of_append

theorem append {w : List UInt8} {c : UInt8} (h : HostClean w) (hNul : c ≠ nul) (hSlash : c ≠ slash)
    (hDot : w.getLast? = some dot → c ≠ dot) : HostClean (w ++ [c]) where
  noNul hMem := by
    rcases List.mem_append.mp hMem with hMem | hMem
    · exact h.noNul hMem
    · exact hNul (List.mem_singleton.mp hMem).symm
  noSlash hMem := by
    rcases List.mem_append.mp hMem with hMem | hMem
    · exact h.noSlash hMem
    · exact hSlash (List.mem_singleton.mp hMem).symm
  noDots := by
    refine h.noDots.append (.singleton c) ?_
    intro d hLast e hHead hd
    obtain rfl : c = e := Option.some.inj hHead
    exact hDot (hd ▸ hLast)

/-- In a clean host no dot follows a dot. -/
theorem getLast_ne {v y : List UInt8} (h : HostClean (v ++ dot :: y)) : v.getLast? ≠ some dot := by
  intro hLast
  have hChain := (List.isChain_append.mp h.noDots).2.2 dot hLast dot rfl
  exact hChain rfl rfl

theorem map_tolower {w : List UInt8} (h : HostClean w) : HostClean (w.map tolower) where
  noNul hMem := by
    obtain ⟨c, hc, hNul⟩ := List.mem_map.mp hMem
    rw [(tolower_host c).2.2.2.2.1] at hNul
    exact h.noNul (hNul ▸ hc)
  noSlash hMem := by
    obtain ⟨c, hc, hSlash⟩ := List.mem_map.mp hMem
    rw [(tolower_host c).2.2.2.2.2] at hSlash
    exact h.noSlash (hSlash ▸ hc)
  noDots := by
    rw [List.isChain_map]
    refine h.noDots.imp ?_
    intro c d hSide hc hd
    exact hSide ((tolower_host c).1.mp hc) ((tolower_host d).1.mp hd)

end HostClean

theorem getLast?_map_tolower {w : List UInt8} :
    (w.map tolower).getLast? = some dot ↔ w.getLast? = some dot := by
  rw [List.getLast?_map, Option.map_eq_some_iff]
  constructor
  · rintro ⟨c, hc, hDot⟩
    rwa [(tolower_host c).1.mp hDot] at hc
  · intro h
    exact ⟨dot, h, (tolower_host dot).1.mpr rfl⟩

theorem head?_map_tolower {w : List UInt8} :
    (w.map tolower).head? = some lbracket ↔ w.head? = some lbracket := by
  rw [List.head?_map, Option.map_eq_some_iff]
  constructor
  · rintro ⟨c, hc, hBracket⟩
    rwa [(tolower_host c).2.2.1.mp hBracket] at hc
  · intro h
    exact ⟨lbracket, h, (tolower_host lbracket).2.2.1.mpr rfl⟩

theorem HostNormal.map_tolower {w : List UInt8} (h : HostNormal w) : HostNormal (w.map tolower) where
  nonempty hNil := h.nonempty (List.map_eq_nil_iff.mp hNil)
  clean := h.clean.map_tolower
  noTrailingDot hLast := h.noTrailingDot (getLast?_map_tolower.mp hLast)
  noPort hHead hMem := by
    obtain ⟨c, hc, hColon⟩ := List.mem_map.mp hMem
    rw [(tolower_host c).2.1] at hColon
    exact h.noPort (fun hBracket => hHead (head?_map_tolower.mpr hBracket)) (hColon ▸ hc)

/-- A byte that does not end the scan's state is added to the part it belongs to. -/
theorem HostCut.append {s : HostState} {x y : List UInt8} {c : UInt8} (h : HostCut s x y)
    (hUsual : s = .usual → c ≠ colon ∧ (c = lbracket → x ++ y ≠ []))
    (hLiteral : s = .literal → c ≠ rbracket) :
    ∃ x' y', x ++ y ++ [c] = x' ++ y' ∧ HostCut s x' y' ∧ (s = .rest → x' = x) := by
  cases h with
  | usual hColon hHead =>
      obtain ⟨hc, hFirst⟩ := hUsual rfl
      refine ⟨x ++ [c], [], by simp, .usual ?_ ?_, by simp⟩
      · simp [hColon, hc.symm]
      · cases x with
        | nil => simpa using hFirst
        | cons d x => simpa using hHead
  | @literal x hBracket =>
      refine ⟨lbracket :: (x ++ [c]), [], by simp, .literal ?_, by simp⟩
      simp [hBracket, (hLiteral rfl).symm]
  | @port x y hColon hHead => exact ⟨x, colon :: (y ++ [c]), by simp, .port _ hColon hHead, fun _ => rfl⟩
  | @closed x y hBracket => exact ⟨_, y ++ [c], by simp, .closed _ hBracket, fun _ => rfl⟩

theorem HostCut.ne_rest_of_nil {s : HostState} (h : HostCut s [] []) : s ≠ .rest := by
  cases h
  exact HostState.noConfusion

namespace HostTrace

theorem start (n : Nat) : HostTrace n [] ⟨.usual, n, n⟩ where
  clean := .nil
  dots := .inl ⟨List.not_mem_nil, rfl⟩
  cut := ⟨[], [], rfl, .usual List.not_mem_nil (by simp), rfl⟩

/-- A byte other than a dot leaves the last dot where it is. -/
theorem dots_append {n : Nat} {w : List UInt8} {σ : HostScan} {c : UInt8} (h : HostTrace n w σ)
    (hc : c ≠ dot) :
    (dot ∉ w ++ [c] ∧ σ.dotPos = n) ∨
      ∃ p q, w ++ [c] = p ++ dot :: q ∧ dot ∉ q ∧ σ.dotPos = p.length := by
  rcases h.dots with ⟨hNone, hPos⟩ | ⟨p, q, rfl, hLast, hPos⟩
  · exact .inl ⟨by simp [hNone, hc.symm], hPos⟩
  · exact .inr ⟨p, q ++ [c], by simp, by simp [hLast, hc.symm], hPos⟩

/-- The last dot has the position right before the end exactly if it ends the bytes so far. -/
theorem getLast_iff {n : Nat} {w : List UInt8} {σ : HostScan} (h : HostTrace n w σ)
    (hw : w.length ≤ n) (hn : n < 2 ^ 31) :
    σ.dotPos = toSize ((w.length : Int) - 1) ↔ w.getLast? = some dot := by
  rw [toSize_pred (by omega)]
  rcases h.dots with ⟨hNone, hPos⟩ | ⟨p, q, rfl, hLast, hPos⟩
  · constructor
    · intro hEq
      split_ifs at hEq <;> omega
    · intro hDot
      exact absurd (List.mem_of_getLast? hDot) hNone
  · rw [hPos, List.getLast?_append]
    simp only [List.length_append, List.length_cons, List.getLast?_cons, Option.some_or, Option.some.injEq]
    cases hq : q.getLast? with
    | none =>
        rw [List.getLast?_eq_none_iff] at hq
        simp [hq]
    | some d =>
        have hMem := List.mem_of_getLast? hq
        have hLength := List.length_pos_of_mem hMem
        constructor
        · intro hEq
          rw [if_neg (by omega)] at hEq
          omega
        · intro hd
          exact absurd (hd ▸ hMem) hLast

/-- A byte that ends neither the host nor the scan's state. -/
theorem append {n : Nat} {w : List UInt8} {σ : HostScan} {c : UInt8} (h : HostTrace n w σ)
    (hDot : c ≠ dot) (hNul : c ≠ nul) (hSlash : c ≠ slash)
    (hUsual : σ.state = .usual → c ≠ colon ∧ (c = lbracket → w ≠ []))
    (hLiteral : σ.state = .literal → c ≠ rbracket) : HostTrace n (w ++ [c]) σ where
  clean := h.clean.append hNul hSlash fun _ => hDot
  dots := h.dots_append hDot
  cut := by
    obtain ⟨x, y, rfl, hCut, hLen⟩ := h.cut
    obtain ⟨x', y', hSplit, hCut', hSame⟩ := hCut.append hUsual hLiteral
    refine ⟨x', y', hSplit, hCut', hLen.trans ?_⟩
    split_ifs with hRest
    · rw [hSame hRest]
    · rfl

/-- One byte more: the loop goes on as long as the host is clean, and halts on the first
byte that makes it unclean. -/
theorem step {n : Nat} {w : List UInt8} {σ : HostScan} (c : UInt8) (h : HostTrace n w σ)
    (hw : w.length ≤ n) (hn : n < 2 ^ 31) :
    (hostByteStep w.length σ c).All (HostTrace n (w ++ [c])) fun _ => ¬ HostClean (w ++ [c]) := by
  have hLast := h.getLast_iff hw hn
  obtain ⟨x, y, hSplit, hCut, hLen⟩ := h.cut
  unfold hostByteStep
  refine Verdict.all_ite (fun hDot => ?_) fun hDot => ?_
  · subst hDot
    refine Verdict.all_ite (fun hPos => ?_) fun hPos => ?_
    · intro hClean
      exact HostClean.getLast_ne hClean (hLast.mp hPos)
    · have hEnd : w.getLast? ≠ some dot := fun hEq => hPos (hLast.mpr hEq)
      obtain ⟨x', y', hSplit', hCut', hSame⟩ :=
        hCut.append (c := dot) (fun _ => ⟨by decide, fun hc => absurd hc (by decide)⟩) fun _ => by decide
      refine ⟨h.clean.append (by decide) (by decide) fun hEq => absurd hEq hEnd, ?_, x', y', ?_, hCut', ?_⟩
      · exact .inr ⟨w, [], rfl, List.not_mem_nil, rfl⟩
      · rw [hSplit, hSplit']
      · refine hLen.trans ?_
        split_ifs with hRest
        · rw [hSame hRest]
        · rfl
  refine Verdict.all_ite (fun hColon => ?_) fun hColon => ?_
  · subst hColon
    refine Verdict.all_ite (fun hState => ?_) fun hState => ?_
    · -- the first colon outside brackets cuts off the port
      rw [hState] at hCut
      cases hCut with
      | usual hNone hHead =>
          rw [List.append_nil] at hSplit
          subst hSplit
          exact ⟨h.clean.append (by decide) (by decide) fun _ => by decide, h.dots_append (by decide),
            w, [colon], rfl, .port [] hNone hHead, rfl⟩
    · exact h.append (by decide) (by decide) (by decide) (fun hEq => absurd hEq hState) fun _ => by decide
  refine Verdict.all_ite (fun hLeft => ?_) fun hLeft => ?_
  · subst hLeft
    refine Verdict.all_ite (fun hFirst => ?_) fun hFirst => ?_
    · obtain rfl := List.length_eq_zero_iff.mp hFirst
      refine ⟨h.clean.append (by decide) (by decide) fun _ => by decide, h.dots_append (by decide),
        [lbracket], [], rfl, .literal List.not_mem_nil, ?_⟩
      obtain ⟨rfl, rfl⟩ := List.nil_eq_append_iff.mp hSplit
      rwa [if_neg hCut.ne_rest_of_nil] at hLen
    · refine h.append (by decide) (by decide) (by decide) (fun _ => ⟨by decide, fun _ hNil => ?_⟩)
        fun _ => by decide
      exact hFirst (List.length_eq_zero_iff.mpr hNil)
  refine Verdict.all_ite (fun hRight => ?_) fun hRight => ?_
  · subst hRight
    refine Verdict.all_ite (fun hState => ?_) fun hState => ?_
    · -- the bracket that closes the literal ends the host
      rw [hState] at hCut
      cases hCut with
      | @literal x hNone =>
          rw [List.append_nil] at hSplit
          subst hSplit
          exact ⟨h.clean.append (by decide) (by decide) fun _ => by decide, h.dots_append (by decide),
            lbracket :: (x ++ [rbracket]), [], by simp, .closed [] hNone, by simp⟩
    · exact h.append (by decide) (by decide) (by decide) (fun _ => ⟨by decide, fun hc => absurd hc (by decide)⟩)
        fun hEq => absurd hEq hState
  refine Verdict.all_ite (fun hNul hClean => ?_) fun hNul => ?_
  · exact hClean.noNul (List.mem_append_right _ (List.mem_singleton.mpr hNul.symm))
  refine Verdict.all_ite (fun hSlash hClean => ?_) fun hSlash => ?_
  · exact hClean.noSlash (List.mem_append_right _ (List.mem_singleton.mpr hSlash.symm))
  · exact h.append hDot hNul hSlash (fun _ => ⟨hColon, fun hc => absurd hc hLeft⟩) fun _ => hRight

/-- The locals after all of `w`. This is the induction over the bytes of the host, with
the trace as its invariant. -/
theorem run {n : Nat} {w : List UInt8} (hw : w.length ≤ n) (hn : n < 2 ^ 31) :
    (Scan.run hostByteStep 0 ⟨.usual, n, n⟩ w).All (HostTrace n w) fun _ _ => ¬ HostClean w := by
  induction w using List.reverseRecOn with
  | nil => exact .start n
  | append_singleton w c ih =>
      rw [List.length_append, List.length_singleton] at hw
      have hBefore := ih (by omega)
      cases hRun : Scan.run hostByteStep 0 ⟨.usual, n, n⟩ w with
      | halted q r =>
          rw [hRun] at hBefore
          rw [run_append_of_halted _ hRun]
          intro hClean
          exact hBefore hClean.take
      | pending σ =>
          rw [hRun] at hBefore
          have hStep := HostTrace.step c hBefore (by omega) hn
          rw [run_append_of_pending _ hRun, Nat.zero_add]
          cases hMove : hostByteStep w.length σ c with
          | next t =>
              rw [hMove] at hStep
              rwa [run_cons_next _ hMove]
          | halt r =>
              rw [hMove] at hStep
              rwa [run_cons_halt _ hMove]

end HostTrace

/-- What is left of the part in front of the cut: a dot at its end goes if it is
the last dot of the host. -/
def HostKept (x y v : List UInt8) : Prop :=
  (x = v ++ [dot] ∧ dot ∉ y) ∨ (x = v ∧ (x.getLast? = some dot → dot ∈ y))

theorem HostCut.nil_of_ne_rest {s : HostState} {x y : List UInt8} (h : HostCut s x y) (hs : s ≠ .rest) :
    y = [] := by
  cases h with
  | usual => rfl
  | literal => rfl
  | port => exact absurd rfl hs
  | closed => exact absurd rfl hs

/-- The test for a trailing dot, on the two parts of the host. The comparison is one of
`size_t` values, and an empty host name wraps in it. -/
theorem HostTrace.kept {x y : List UInt8} {σ : HostScan}
    (h : HostTrace (x ++ y).length (x ++ y) σ) (hBound : (x ++ y).length < 2 ^ 31) :
    ∃ v, HostKept x y v ∧
      (if σ.dotPos = toSize ((x.length : Int) - 1) then toSize ((x.length : Int) - 1) else x.length) =
        v.length := by
  by_cases hTrail : x.getLast? = some dot ∧ dot ∉ y
  · obtain ⟨hLast, hNone⟩ := hTrail
    obtain ⟨v, rfl⟩ := List.getLast?_eq_some_iff.mp hLast
    refine ⟨v, .inl ⟨rfl, hNone⟩, ?_⟩
    have hPred : toSize (((v ++ [dot]).length : Int) - 1) = v.length := by
      simp only [List.length_append, List.length_singleton] at hBound ⊢
      rw [toSize_pred (by omega), if_neg (Nat.succ_ne_zero _), Nat.add_sub_cancel]
    have hPos : σ.dotPos = v.length := by
      rcases h.dots with ⟨hDot, -⟩ | ⟨p, q, hSplit, hAfter, hPos⟩
      · simp at hDot
      · rw [List.append_assoc, List.singleton_append] at hSplit
        rw [hPos, (append_cons_inj_of_last hNone hAfter hSplit)]
    rw [hPred, if_pos hPos]
  · have hDot : x.getLast? = some dot → dot ∈ y := fun hLast => by_contra fun hNone => hTrail ⟨hLast, hNone⟩
    refine ⟨x, .inr ⟨rfl, hDot⟩, if_neg fun hPos => ?_⟩
    have hFits : x.length + y.length < 2 ^ 31 := by rwa [← List.length_append]
    rw [toSize_pred (by omega)] at hPos
    rcases h.dots with ⟨-, hNone⟩ | ⟨p, q, hSplit, hAfter, hLast⟩
    · rw [hNone, List.length_append] at hPos
      split_ifs at hPos <;> omega
    · have hLength : x.length + y.length = p.length + (q.length + 1) := by
        have hBoth := congrArg List.length hSplit
        rwa [List.length_append, List.length_append, List.length_cons] at hBoth
      have hFront : x.length = (p ++ [dot]).length := by
        rw [List.length_append, List.length_singleton]
        split_ifs at hPos <;> omega
      rw [List.append_cons] at hSplit
      obtain ⟨rfl, rfl⟩ := List.append_inj hSplit hFront
      exact hAfter (hDot List.getLast?_concat)

/-- `hostLength` in terms of the parts of the host. -/
theorem hostLength_cases {w : List UInt8} (hBound : w.length < 2 ^ 31) :
    (¬ HostClean w ∧ hostLength w = none) ∨
      (HostClean w ∧ ∃ s x y v, w = x ++ y ∧ HostCut s x y ∧ HostKept x y v ∧
        hostLength w = if v.length = 0 then none else some v.length) := by
  have hTrace := HostTrace.run (Nat.le_refl w.length) hBound
  unfold hostLength
  cases hRun : Scan.run hostByteStep 0 ⟨.usual, w.length, w.length⟩ w with
  | halted q r =>
      rw [hRun] at hTrace
      exact .inl ⟨hTrace, rfl⟩
  | pending σ =>
      rw [hRun] at hTrace
      obtain ⟨x, y, rfl, hCut, hLen⟩ := hTrace.cut
      have hLen' : σ.hostLen = x.length := by
        rw [hLen]
        split_ifs with hRest
        · rfl
        · rw [hCut.nil_of_ne_rest hRest, List.append_nil]
      obtain ⟨v, hKept, hValue⟩ := HostTrace.kept hTrace hBound
      refine .inr ⟨hTrace.clean, σ.state, x, y, v, rfl, hCut, hKept, ?_⟩
      simp only [hLen', hValue]

theorem HostKept.split {x y v : List UInt8} (h : HostKept x y v) : ∃ z, x = v ++ z := by
  rcases h with ⟨rfl, -⟩ | ⟨rfl, -⟩
  · exact ⟨[dot], rfl⟩
  · exact ⟨[], (List.append_nil x).symm⟩

/-- The dot at the end survives exactly where it stands before the port and the
last dot of the host behind it. -/
theorem HostCut.keepsDot_iff {s : HostState} {x y v : List UInt8} (hClean : HostClean (x ++ y))
    (hCut : HostCut s x y) (hKept : HostKept x y v) :
    v.getLast? = some dot ↔ KeepsDot (x ++ y) := by
  constructor
  · intro hLast
    rcases hKept with ⟨rfl, -⟩ | ⟨rfl, hDot⟩
    · rw [List.append_assoc] at hClean
      exact absurd hLast hClean.getLast_ne
    · have hMem := hDot hLast
      cases hCut with
      | usual => exact absurd hMem List.not_mem_nil
      | literal => exact absurd hMem List.not_mem_nil
      | @closed x y =>
          rw [← List.cons_append, List.getLast?_concat] at hLast
          exact absurd hLast (by decide)
      | port y hColon hHead =>
          obtain ⟨a, rfl⟩ := List.getLast?_eq_some_iff.mp hLast
          refine ⟨?_, a, y, by simp, fun hc => hColon (List.mem_append_left _ hc), ?_⟩
          · cases a <;> simpa using hHead
          · exact List.mem_of_ne_of_mem (by decide) hMem
  · rintro ⟨hHead, a, b, hSplit, hColon, hMem⟩
    cases hCut with
    | usual hNone =>
        rw [List.append_nil] at hSplit
        simp [hSplit] at hNone
    | literal => simp at hHead
    | closed => simp at hHead
    | port y hNone =>
        have hFront : colon ∉ a ++ [dot] := by
          rw [List.mem_append, List.mem_singleton]
          rintro (hc | hc)
          · exact hColon hc
          · exact absurd hc (by decide)
        have hSame : x ++ colon :: y = (a ++ [dot]) ++ colon :: b := by rw [hSplit, List.append_cons]
        obtain ⟨rfl, hBehind⟩ := append_cons_inj_of_first hNone hFront hSame
        rcases hKept with ⟨-, hLast⟩ | ⟨rfl, -⟩
        · exact absurd (List.mem_cons_of_mem colon (hBehind ▸ hMem)) hLast
        · exact List.getLast?_concat

/-- What the beginning of the part before the cut says about ports and brackets. -/
theorem HostCut.shape {s : HostState} {v z y : List UInt8} (h : HostCut s (v ++ z) y) :
    (v.head? ≠ some lbracket → colon ∉ v) ∧ (v.head? = some lbracket → rbracket ∉ v.dropLast) := by
  generalize hx : v ++ z = x at h
  have hPort : colon ∉ x → x.head? ≠ some lbracket →
      (v.head? ≠ some lbracket → colon ∉ v) ∧ (v.head? = some lbracket → rbracket ∉ v.dropLast) := by
    intro hColon hOther
    subst hx
    refine ⟨fun _ hMem => hColon (List.mem_append_left _ hMem), fun hBracket => ?_⟩
    cases v with
    | nil => exact List.not_mem_nil
    | cons c v => exact absurd hBracket hOther
  have hFirst : ∀ u, x = lbracket :: u → v.head? ≠ some lbracket → colon ∉ v := by
    intro u hu hOther
    cases v with
    | nil => exact List.not_mem_nil
    | cons c v =>
        have hSame := hx.trans hu
        rw [List.cons_append, List.cons.injEq] at hSame
        exact absurd (congrArg some hSame.1) hOther
  cases h with
  | usual hColon hOther => exact hPort hColon hOther
  | port y hColon hOther => exact hPort hColon hOther
  | @literal u hNone =>
      refine ⟨hFirst u rfl, fun _ hMem => ?_⟩
      have hAll : rbracket ∈ lbracket :: u := hx ▸ List.mem_append_left z (List.mem_of_mem_dropLast hMem)
      exact hNone (List.mem_of_ne_of_mem (by decide) hAll)
  | @closed u y hNone =>
      refine ⟨hFirst _ rfl, fun _ hMem => ?_⟩
      have hFront : rbracket ∈ lbracket :: u := by
        rw [← List.cons_append] at hx
        rcases List.eq_nil_or_concat' z with rfl | ⟨z', c, rfl⟩
        · rw [List.append_nil] at hx
          rwa [hx, List.dropLast_concat] at hMem
        · rw [← List.append_assoc] at hx
          rw [← (List.append_inj' hx rfl).1]
          exact List.mem_append_left z' (List.mem_of_mem_dropLast hMem)
      exact hNone (List.mem_of_ne_of_mem (by decide) hFront)

/-- What is kept of a clean host is in normal form, but for the dot at its end. -/
theorem HostCut.normal {s : HostState} {x y v : List UInt8} (hClean : HostClean (x ++ y))
    (hCut : HostCut s x y) (hKept : HostKept x y v) (hNonempty : v ≠ [])
    (hKeeps : ¬ KeepsDot (x ++ y)) : HostNormal v := by
  obtain ⟨z, hSplit⟩ := hKept.split
  refine ⟨hNonempty, ?_, fun hLast => hKeeps ((hCut.keepsDot_iff hClean hKept).mp hLast), ?_⟩
  · rw [hSplit, List.append_assoc] at hClean
    exact hClean.take
  · rw [hSplit] at hCut
    exact hCut.shape.1

/-- All of a normal host is kept, unless a bracket that it opens with is closed before
its last byte. -/
theorem HostNormal.hostLength_eq {v : List UInt8} (h : HostNormal v)
    (hClosed : v.head? = some lbracket → rbracket ∉ v.dropLast) (hBound : v.length < 2 ^ 31) :
    hostLength v = some v.length := by
  rcases hostLength_cases hBound with ⟨hDirty, -⟩ | ⟨-, s, x, y, u, hSplit, hCut, hKept, hLength⟩
  · exact absurd h.clean hDirty
  have hNil : y = [] := by
    cases hCut with
    | usual => rfl
    | literal => rfl
    | port y hColon hHead =>
        have hMem : colon ∈ v := hSplit ▸ List.mem_append_right x List.mem_cons_self
        refine absurd hMem (h.noPort fun hBracket => ?_)
        rw [hSplit] at hBracket
        cases x with
        | nil => exact absurd (Option.some.inj hBracket) (by decide)
        | cons c x => exact hHead hBracket
    | @closed x y =>
        rcases List.eq_nil_or_concat' y with hEmpty | ⟨y', c, rfl⟩
        · exact hEmpty
        · rw [← List.append_assoc] at hSplit
          rw [hSplit, List.dropLast_concat] at hClosed
          exact absurd (by simp) (hClosed rfl)
  subst hNil
  rw [List.append_nil] at hSplit
  subst hSplit
  rcases hKept with ⟨rfl, -⟩ | ⟨rfl, -⟩
  · exact absurd List.getLast?_concat h.noTrailingDot
  · rw [hLength, if_neg fun hZero => h.nonempty (List.length_eq_zero_iff.mp hZero)]

/-- The code that `http_process_host` returns. -/
theorem httpProcessHost_code {mem : Mem} {a : Nat} {v : List UInt8} (hBound : v.length < 2 ^ 31)
    (hMem : slice mem a (a + v.length) = v) :
    (httpProcessHost mem ⟨v.length, a⟩).1 = if (hostLength v).isSome then .lok else .lerror := by
  unfold httpProcessHost hostLength
  simp only [toSize_of_nat (by omega : v.length < 2 ^ 64), Int.toNat_natCast, hMem]
  cases Scan.run hostByteStep 0 ⟨.usual, v.length, v.length⟩ v with
  | halted _ _ => rfl
  | pending σ =>
      simp only
      split_ifs <;> first | rfl | contradiction

/-- `http_process_host` on a host in memory. -/
theorem httpProcessHost_result {mem : Mem} {a n : Nat} {v : List UInt8} (hBound : n < 2 ^ 31)
    (hMem : slice mem a (a + n) = v) :
    httpProcessHost mem ⟨n, a⟩ = match hostLength v with
      | none => (.lerror, mem, ⟨n, a⟩)
      | some k => (.lok, lowerRange mem a n, ⟨k, a⟩) := by
  have hLength : n = v.length := by rw [← hMem, length_slice, Nat.add_sub_cancel_left]
  subst hLength
  have hCode := httpProcessHost_code hBound hMem
  have hRest := httpProcessHost_eq hBound hMem
  cases hHost : hostLength v with
  | none =>
      rw [hHost] at hCode hRest
      exact Prod.ext hCode hRest
  | some k =>
      rw [hHost] at hCode hRest
      exact Prod.ext hCode hRest

/-- Lower-casing what is in lower case changes nothing. -/
theorem lowerRange_lowerRange {mem : Mem} {a n k : Nat} (h : k ≤ n) :
    lowerRange (lowerRange mem a n) a k = lowerRange mem a n := by
  funext x
  unfold lowerRange
  by_cases hx : a ≤ x ∧ x < a + k
  · rw [if_pos hx, if_pos ⟨hx.1, by omega⟩, tolower_tolower]
  · rw [if_neg hx]

/-- What processing the `n` bytes at `a` as a host comes to: it fails and changes
nothing, or it leaves a normal host, the lower-cased beginning of what was there,
and would leave that as it is. -/
def YieldsNormal (mem : Mem) (a n : Nat) : Prop :=
  httpProcessHost mem ⟨n, a⟩ = (.lerror, mem, ⟨n, a⟩) ∨
    ∃ mem' k, httpProcessHost mem ⟨n, a⟩ = (.lok, mem', ⟨(k : Nat), a⟩) ∧ k ≤ n ∧
      slice mem' a (a + k) = (slice mem a (a + k)).map tolower ∧
      HostNormal (slice mem' a (a + k)) ∧ httpProcessHost mem' ⟨k, a⟩ = (.lok, mem', ⟨k, a⟩)

/-- Every host is put into its normal form but the clean ones that keep a dot at their
end. The bytes are any row of fewer than 2^31, as the index is a signed int. -/
theorem yieldsNormal_iff (mem : Mem) (a : Nat) {n : Nat} (hBound : n < 2 ^ 31) :
    YieldsNormal mem a n ↔
      ¬ (HostClean (slice mem a (a + n)) ∧ KeepsDot (slice mem a (a + n))) := by
  have hWord : (slice mem a (a + n)).length = n := by rw [length_slice, Nat.add_sub_cancel_left]
  have hResult := httpProcessHost_result hBound (rfl : slice mem a (a + n) = _)
  rcases hostLength_cases (hWord.symm ▸ hBound) with
    ⟨hDirty, hNone⟩ | ⟨hClean, s, x, y, v, hSplit, hCut, hKept, hSome⟩
  · rw [hNone] at hResult
    exact iff_of_true (.inl hResult) fun hBoth => hDirty hBoth.1
  have hKeeps := hCut.keepsDot_iff (hSplit ▸ hClean) hKept
  rw [← hSplit] at hKeeps
  by_cases hZero : v.length = 0
  · rw [hSome, if_pos hZero] at hResult
    refine iff_of_true (.inl hResult) fun hBoth => ?_
    have hLast := hKeeps.mpr hBoth.2
    rw [List.length_eq_zero_iff.mp hZero] at hLast
    exact absurd hLast (by simp)
  rw [hSome, if_neg hZero] at hResult
  obtain ⟨z, hFront⟩ := hKept.split
  have hWhole : slice mem a (a + n) = v ++ (z ++ y) := by rw [hSplit, hFront, List.append_assoc]
  have hLe : v.length ≤ n := by
    rw [← hWord, hWhole, List.length_append]
    omega
  have hBefore : slice mem a (a + v.length) = v := by rw [slice_take hLe, hWhole, List.take_left]
  have hAfter : slice (lowerRange mem a n) a (a + v.length) = v.map tolower := by
    rw [slice_take hLe, slice_lowerRange, hWhole, List.map_append,
      List.take_left' (List.length_map _)]
  constructor
  · rintro (hFails | ⟨mem', k, hEq, -, -, hNormal, -⟩)
    · rw [hFails, Prod.mk.injEq] at hResult
      exact absurd hResult.1 Res.noConfusion
    · rw [hResult, Prod.mk.injEq, Prod.mk.injEq, LtString.mk.injEq, Nat.cast_inj] at hEq
      obtain ⟨-, rfl, rfl, -⟩ := hEq
      rw [hAfter] at hNormal
      exact fun hBoth => hNormal.noTrailingDot (getLast?_map_tolower.mpr (hKeeps.mpr hBoth.2))
  · intro hNot
    have hNormal := hCut.normal (hSplit ▸ hClean) hKept
      (fun hNil => hZero (List.length_eq_zero_iff.mpr hNil)) fun hDot => hNot ⟨hClean, hSplit ▸ hDot⟩
    refine .inr ⟨lowerRange mem a n, v.length, hResult, hLe, by rw [hAfter, hBefore], ?_, ?_⟩
    · rw [hAfter]
      exact hNormal.map_tolower
    · rw [hFront] at hCut
      rw [httpProcessHost_result (by omega) hAfter, hostLength_tolower,
        hNormal.hostLength_eq hCut.shape.2 (by omega), lowerRange_lowerRange hLe]

theorem yieldsNormal_trailingDot : YieldsNormal (place (fun _ => 0) 1 (ofChars ['A', 'b', '.'])) 1 3 := by
  refine (yieldsNormal_iff _ 1 (by decide)).mpr ?_
  rw [show (1 + 3 : Nat) = 1 + (ofChars ['A', 'b', '.']).length from rfl, slice_place]
  rintro ⟨-, -, a, b, hSplit, -⟩
  have hColon : colon ∈ ofChars ['A', 'b', '.'] := by simp [hSplit]
  exact absurd hColon (by decide)

/-- Of the host `a.:b.c` the loop keeps the first two bytes. -/
theorem httpProcessHost_keepsDot (mem : Mem) (a : Nat)
    (hMem : slice mem a (a + 6) = ofChars ['a', '.', ':', 'b', '.', 'c']) :
    httpProcessHost mem ⟨(6 : Nat), a⟩ = (.lok, lowerRange mem a 6, ⟨(2 : Nat), a⟩) := by
  have hLength : hostLength (ofChars ['a', '.', ':', 'b', '.', 'c']) = some 2 := by decide
  rw [httpProcessHost_result (by decide) hMem, hLength]

theorem not_yieldsNormal :
    ¬ YieldsNormal (place (fun _ => 0) 1 (ofChars ['a', '.', ':', 'b', '.', 'c'])) 1 6 := by
  have hResult := httpProcessHost_keepsDot (place (fun _ => 0) 1 (ofChars ['a', '.', ':', 'b', '.', 'c'])) 1
    (slice_place _ _ _)
  rintro (hFails | ⟨mem', k, hEq, -, hLower, hNormal, -⟩)
  · rw [hFails, Prod.mk.injEq] at hResult
    exact absurd hResult.1 Res.noConfusion
  · rw [hResult, Prod.mk.injEq, Prod.mk.injEq, LtString.mk.injEq, Nat.cast_inj] at hEq
    obtain ⟨-, -, rfl, -⟩ := hEq
    have hKept : slice mem' 1 (1 + 2) = ofChars ['a', '.'] := hLower.trans (by decide)
    rw [hKept] at hNormal
    exact hNormal.noTrailingDot (by decide)

end Leactor
