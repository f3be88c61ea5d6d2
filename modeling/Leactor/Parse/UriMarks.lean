import Mathlib.Data.List.TakeWhile
import Leactor.Parse.RequestText

/-! Which paths `ngx_http_parse_request_line` calls complex or quoted: an automaton of
three places, and the texts that it marks. -/
namespace Leactor

open Ascii Scan

/-- Where the parser stands in a path: behind a slash and some pluses, further on in a
segment, or behind a question mark. -/
inductive UriPlace where
  | slash
  | segment
  | args
  deriving DecidableEq, Repr

namespace UriPlace

/-- The bytes by which the path becomes complex or quoted. -/
def Marks : UriPlace → UInt8 → Prop
  | slash, c => c = dot ∨ c = Ascii.slash ∨ c = percent ∨ c = hash
  | segment, c => c = percent ∨ c = hash
  | args, c => c = hash

/-- Behind a mark there is nothing to look for but further marks. -/
def next (place : UriPlace) (c : UInt8) : UriPlace :=
  match place with
  | slash =>
      if c = dot ∨ c = Ascii.slash ∨ c = percent ∨ c = hash ∨ c = question then args
      else if c = plus then slash
      else segment
  | segment =>
      if c = percent ∨ c = hash ∨ c = question then args
      else if c = Ascii.slash then slash
      else segment
  | args => args

instance (place : UriPlace) : DecidablePred place.Marks := fun _ =>
  match place with
  | slash => inferInstanceAs (Decidable (_ ∨ _))
  | segment => inferInstanceAs (Decidable (_ ∨ _))
  | args => inferInstanceAs (Decidable (_ = _))

end UriPlace

/-- The place of a state. A space leaves a segment where it is. -/
def RequestLineState.place : RequestLineState → UriPlace
  | .afterSlashInUri => .slash
  | .uri | .http09 => .args
  | _ => .segment

/-- The states inside a path, or behind a space in it. -/
def RequestLineState.Along : RequestLineState → Prop
  | .afterSlashInUri | .checkUri | .uri | .checkUriHttp09 | .http09 => True
  | _ => False

/-- A byte along a path moves the place on, and marks the request where the place says so. -/
def AlongStep (place : UriPlace) (c : UInt8) (v : Verdict RequestLineScan LineExit) (r : RequestT) : Prop :=
  ∃ s r', v = .next (s, r') ∧ s.Along ∧ (c ≠ sp → s.InPath) ∧ s.place = place.next c ∧
    (r'.UriMarked ↔ r.UriMarked ∨ place.Marks c)

theorem AlongStep.ite {place : UriPlace} {c : UInt8} {v v' : Verdict RequestLineScan LineExit} {r : RequestT}
    {b : Prop} [Decidable b] (hThen : b → AlongStep place c v r) (hElse : ¬ b → AlongStep place c v' r) :
    AlongStep place c (if b then v else v') r := by
  split_ifs with h
  · exact hThen h
  · exact hElse h

/-- None of the bytes that the parser looks for in a path is usual. -/
theorem usualBit_special {c : UInt8} (hUsual : usualBit (fun _ => 0) c) :
    c ≠ sp ∧ c ≠ slash ∧ c ≠ dot ∧ c ≠ percent ∧ c ≠ question ∧ c ≠ hash ∧ c ≠ plus := by
  refine ⟨?_, ?_, ?_, ?_, ?_, ?_, ?_⟩ <;>
    · rintro rfl
      exact absurd hUsual (by decide)

theorem requestLineStep_along {s : RequestLineState} {r : RequestT} {c : UInt8} (mem : Mem) (p : Nat) (hs : s.Along)
    (hPlain : IsPlain c) (hH : c = upperH → s.InPath) : AlongStep s.place c (requestLineStep mem p (s, r) c) r := by
  obtain ⟨hNul, hCr, hLf⟩ := hPlain
  have hUsual := @usualBit_special c
  cases s with
  | afterSlashInUri | checkUri | uri | checkUriHttp09 | http09 =>
      simp only [requestLineStep, requestLineStepWith, afterSlashInUriStep, checkUriStep, uriStep]
      repeat' refine AlongStep.ite (fun _ => ?_) fun _ => ?_
      all_goals first
        | contradiction
        | (refine ⟨_, _, rfl, trivial, ?_, ?_, ?_⟩ <;>
            simp_all +decide [RequestLineState.InPath, RequestLineState.place, UriPlace.next, UriPlace.Marks,
              RequestT.UriMarked])
  | _ => exact hs.elim

def pathPart (uri : List UInt8) : List UInt8 := uri.takeWhile (· ≠ question)

/-- A slash with a row of pluses behind it, at the end. -/
def EndsOpen (w : List UInt8) : Prop := ∃ u n, w = u ++ slash :: List.replicate n plus

/-- Somewhere a slash and a row of pluses are followed by a dot or another slash. -/
def Crowded (w : List UInt8) : Prop :=
  ∃ u n c v, w = u ++ slash :: (List.replicate n plus ++ c :: v) ∧ (c = dot ∨ c = slash)

/-- The URI has a fragment, or an escape or an empty or dotted segment in its path. -/
def NeedsDecoding (uri : List UInt8) : Prop :=
  hash ∈ uri ∨ percent ∈ pathPart uri ∨ Crowded (pathPart uri)

section Texts

variable {w : List UInt8} {c : UInt8}

theorem pathPart_of_notMem (h : question ∉ w) : pathPart w = w := by
  refine List.takeWhile_eq_self_iff.mpr fun c hc => decide_eq_true ?_
  rintro rfl
  exact h hc

theorem pathPart_concat (w : List UInt8) (c : UInt8) :
    pathPart (w ++ [c]) = if question ∈ w ∨ c = question then pathPart w else w ++ [c] := by
  induction w with
  | nil => by_cases hc : c = question <;> simp [pathPart, hc]
  | cons d w ih =>
      by_cases hd : d = question
      · simp [pathPart, hd]
      · have hTail : pathPart (d :: (w ++ [c])) = d :: pathPart (w ++ [c]) := by simp [pathPart, hd]
        have hTail' : pathPart (d :: w) = d :: pathPart w := by simp [pathPart, hd]
        rw [List.cons_append, hTail, hTail', ih, apply_ite (List.cons d)]
        simp [Ne.symm hd]

theorem endsOpen_concat : EndsOpen (w ++ [c]) ↔ c = slash ∨ c = plus ∧ EndsOpen w := by
  constructor
  · rintro ⟨u, n, hw⟩
    cases n with
    | zero => exact Or.inl (List.cons.inj (List.append_inj' hw rfl).2).1
    | succ n =>
        rw [List.replicate_succ', ← List.cons_append, ← List.append_assoc] at hw
        obtain ⟨hw, hc⟩ := List.append_inj' hw rfl
        exact Or.inr ⟨(List.cons.inj hc).1, u, n, hw⟩
  · rintro (rfl | ⟨rfl, u, n, rfl⟩)
    · exact ⟨w, 0, rfl⟩
    · exact ⟨u, n + 1, by simp [List.replicate_succ']⟩

theorem crowded_concat : Crowded (w ++ [c]) ↔ Crowded w ∨ (c = dot ∨ c = slash) ∧ EndsOpen w := by
  constructor
  · rintro ⟨u, n, d, v, hw, hd⟩
    rcases v.eq_nil_or_concat with rfl | ⟨v, e, rfl⟩
    · rw [← List.cons_append, ← List.append_assoc] at hw
      obtain ⟨hw, hc⟩ := List.append_inj' hw rfl
      exact Or.inr ⟨(List.cons.inj hc).1 ▸ hd, u, n, hw⟩
    · refine Or.inl ⟨u, n, d, v, ?_, hd⟩
      have hWhole : w ++ [c] = u ++ slash :: (List.replicate n plus ++ d :: v) ++ [e] := by simpa using hw
      exact (List.append_inj' hWhole rfl).1
  · rintro (⟨u, n, d, v, rfl, hd⟩ | ⟨hc, u, n, rfl⟩)
    · exact ⟨u, n, d, v ++ [c], by simp, hd⟩
    · exact ⟨u, n, c, [], by simp, hc⟩

/-- What a place says of a URI that needs no decoding. -/
def UriPlace.Spec (uri : List UInt8) : UriPlace → Prop
  | slash => question ∉ uri ∧ EndsOpen uri
  | segment => question ∉ uri ∧ ¬ EndsOpen uri
  | args => question ∈ uri

theorem NeedsDecoding.concat (h : NeedsDecoding w) (c : UInt8) : NeedsDecoding (w ++ [c]) := by
  have hPart : pathPart (w ++ [c]) = pathPart w ∨ pathPart w = w ∧ pathPart (w ++ [c]) = w ++ [c] := by
    rw [pathPart_concat]
    split_ifs with hHere
    · exact Or.inl rfl
    · exact Or.inr ⟨pathPart_of_notMem (not_or.mp hHere).1, rfl⟩
  refine h.imp (List.mem_append_left _) ?_
  rcases hPart with hSame | ⟨hWhole, hPart⟩
  · rw [hSame]
    exact id
  · rw [hWhole, hPart]
    exact Or.imp (List.mem_append_left _) fun hCrowded => crowded_concat.mpr (Or.inl hCrowded)

/-- A byte behind a URI that needs no decoding. Whether it marks the URI depends on the
place that the scan is at, and not on what is further back. -/
theorem needsDecoding_concat {place : UriPlace} (hNot : ¬ NeedsDecoding w) (hPlace : place.Spec w) :
    NeedsDecoding (w ++ [c]) ↔ place.Marks c := by
  simp only [NeedsDecoding, not_or] at hNot
  obtain ⟨hHash, hPercent, hCrowded⟩ := hNot
  cases place with
  | args => simp [NeedsDecoding, UriPlace.Marks, pathPart_concat, show question ∈ w from hPlace, hHash, hPercent,
      hCrowded, eq_comm]
  | slash =>
      obtain ⟨hArgs, hOpen⟩ := hPlace
      rw [pathPart_of_notMem hArgs] at hPercent hCrowded
      by_cases hc : c = question
      · subst hc
        simp +decide [NeedsDecoding, pathPart_concat, pathPart_of_notMem hArgs, hHash, hPercent, hCrowded]
      · simp only [NeedsDecoding, UriPlace.Marks, pathPart_concat, hArgs, hc, or_self, if_false, List.mem_append,
          List.mem_singleton, hHash, hPercent, crowded_concat, hCrowded, hOpen, false_or, and_true]
        tauto
  | segment =>
      obtain ⟨hArgs, hOpen⟩ := hPlace
      rw [pathPart_of_notMem hArgs] at hPercent hCrowded
      by_cases hc : c = question
      · subst hc
        simp +decide [NeedsDecoding, pathPart_concat, pathPart_of_notMem hArgs, hHash, hPercent, hCrowded]
      · simp only [NeedsDecoding, UriPlace.Marks, pathPart_concat, hArgs, hc, or_self, if_false, List.mem_append,
          List.mem_singleton, hHash, hPercent, crowded_concat, hCrowded, hOpen, false_or, and_false, or_false]
        tauto

theorem UriPlace.Spec.next {place : UriPlace} (hPlace : place.Spec w) (hMarks : ¬ place.Marks c) :
    (place.next c).Spec (w ++ [c]) := by
  cases place with
  | args => exact List.mem_append_left _ hPlace
  | slash =>
      obtain ⟨hArgs, hOpen⟩ := hPlace
      simp only [UriPlace.Marks, not_or] at hMarks
      simp only [UriPlace.next, hMarks, false_or]
      split_ifs with hHere hPlus
      · simp [UriPlace.Spec, hHere]
      · simp +decide [UriPlace.Spec, endsOpen_concat, hArgs, hOpen, hPlus]
      · simp [UriPlace.Spec, endsOpen_concat, hArgs, hPlus, hMarks.2.1, Ne.symm hHere]
  | segment =>
      obtain ⟨hArgs, hOpen⟩ := hPlace
      simp only [UriPlace.Marks, not_or] at hMarks
      simp only [UriPlace.next, hMarks, false_or]
      split_ifs with hHere hSlash
      · simp [UriPlace.Spec, hHere]
      · simp +decide [UriPlace.Spec, endsOpen_concat, hArgs, hSlash]
      · simp [UriPlace.Spec, endsOpen_concat, hArgs, hSlash, hOpen, Ne.symm hHere]

/-- One byte of a scan by the places alone, with whether there was a mark. -/
def UriPlace.scan (σ : UriPlace × Bool) (c : UInt8) : UriPlace × Bool := (σ.1.next c, σ.2 || decide (σ.1.Marks c))

theorem scan_iff (w : List UInt8) :
    ((w.foldl UriPlace.scan (.segment, false)).2 = true ↔ NeedsDecoding w) ∧
      (¬ NeedsDecoding w → (w.foldl UriPlace.scan (.segment, false)).1.Spec w) := by
  induction w using List.reverseRecOn with
  | nil => simp [NeedsDecoding, pathPart, Crowded, UriPlace.Spec, EndsOpen]
  | append_singleton w c ih =>
      obtain ⟨hMark, hPlace⟩ := ih
      rw [List.foldl_append, List.foldl_cons, List.foldl_nil]
      by_cases hDecode : NeedsDecoding w
      · simp [UriPlace.scan, hMark.mpr hDecode, hDecode.concat c]
      · have hStep := needsDecoding_concat (c := c) hDecode (hPlace hDecode)
        refine ⟨?_, fun hNot => (hPlace hDecode).next (mt hStep.mpr hNot)⟩
        simp [UriPlace.scan, mt hMark.mp hDecode, hStep]

instance : DecidablePred NeedsDecoding := fun w => decidable_of_iff _ (scan_iff w).1

example : NeedsDecoding (ofChars ['/', 'a', '/', '+', '.', '.']) ∧
    ¬ NeedsDecoding (ofChars ['/', 'a', '.', '.', '/', '?', '/', '/', '%']) := by decide

end Texts

/-- The scan has come over the URI `uri`, which began with its slash. -/
structure Scanned (r : RequestT) (uri : List UInt8) (s : RequestLineState) (r' : RequestT) : Prop where
  along : s.Along
  marked : r'.UriMarked ↔ NeedsDecoding uri ∨ r.UriMarked
  place : ¬ NeedsDecoding uri → s.place.Spec uri

section Run

variable {r r' : RequestT} {uri : List UInt8} {s : RequestLineState} {c : UInt8}

theorem Scanned.start (r : RequestT) : Scanned r [slash] .afterSlashInUri r where
  along := trivial
  marked := by simp +decide
  place _ := by simp +decide [UriPlace.Spec, RequestLineState.place, EndsOpen, List.singleton_eq_append_iff]

theorem Scanned.step (h : Scanned r uri s r') (mem : Mem) (p : Nat) (hPlain : IsPlain c)
    (hH : c = upperH → s.InPath) : ∃ s' r'', requestLineStep mem p (s, r') c = .next (s', r'') ∧
      (c ≠ sp → s'.InPath) ∧ Scanned r (uri ++ [c]) s' r'' := by
  obtain ⟨s', r'', hStep, hAlong, hPath, hPlace, hMarked⟩ := requestLineStep_along mem p h.along hPlain hH
  refine ⟨s', r'', hStep, hPath, hAlong, ?_, fun hNot => ?_⟩
  · rw [hMarked, h.marked]
    by_cases hUri : NeedsDecoding uri
    · simp [hUri, hUri.concat c]
    · rw [needsDecoding_concat hUri (h.place hUri)]
      simp [hUri, or_comm]
  · have hUri : ¬ NeedsDecoding uri := fun hUri => hNot (hUri.concat c)
    rw [hPlace]
    exact (h.place hUri).next (mt (needsDecoding_concat hUri (h.place hUri)).mpr hNot)

theorem Scanned.spaces (h : Scanned r uri s r') (mem : Mem) (p n : Nat) :
    ∃ s' r'', run (requestLineStep mem) p (s, r') (List.replicate n sp) = .pending (s', r'') ∧
      Scanned r (uri ++ List.replicate n sp) s' r'' := by
  induction n generalizing p uri s r' with
  | zero => exact ⟨s, r', rfl, by simpa using h⟩
  | succ n ih =>
      obtain ⟨s₁, r₁, hStep, -, hNext⟩ := h.step mem p (c := sp) (by decide) fun hNot => by cases hNot
      obtain ⟨s₂, r₂, hRun, hRest⟩ := ih hNext (p + 1)
      refine ⟨s₂, r₂, (run_cons_next _ hStep).trans hRun, ?_⟩
      rwa [List.append_assoc, List.singleton_append, ← List.replicate_succ] at hRest

/-- The run over a path behind its first slash marks what needs decoding. -/
theorem scanned_of_path {w : List UInt8} (h : PathRest w) (mem : Mem) (p : Nat) (r : RequestT) :
    ∃ s r', run (requestLineStep mem) p (.afterSlashInUri, r) w = .pending (s, r') ∧ s.InPath ∧
      Scanned r (slash :: w) s r' := by
  induction h with
  | nil => exact ⟨_, r, rfl, trivial, .start r⟩
  | @byte w c _ hPlain hSp ih =>
      obtain ⟨s, r₁, hRun, hPath, hScanned⟩ := ih
      obtain ⟨s', r', hStep, hPath', hNext⟩ := hScanned.step mem (p + w.length) hPlain fun _ => hPath
      refine ⟨s', r', ?_, hPath' hSp, hNext⟩
      rw [run_append_of_pending _ hRun, run_cons_next _ hStep, run_nil]
  | @spaces w c n _ hPlain hSp hH ih =>
      obtain ⟨s, r₁, hRun, -, hScanned⟩ := ih
      obtain ⟨s₂, r₂, hSpaces, hScanned₂⟩ := hScanned.spaces mem (p + w.length) (n + 1)
      obtain ⟨s', r', hStep, hPath', hNext⟩ :=
        hScanned₂.step mem (p + w.length + (List.replicate (n + 1) sp).length) hPlain fun hNot => absurd hNot hH
      refine ⟨s', r', ?_, hPath' hSp, by simpa using hNext⟩
      rw [run_append_of_pending _ hRun, run_append_of_pending _ hSpaces, run_cons_next _ hStep, run_nil]

/-- What the parser marks are the targets whose URI needs decoding. -/
theorem TargetText.marked_iff_needsDecoding (t : TargetText) : t.Marked ↔ NeedsDecoding t.uri := by
  cases t with
  | path authority rest hRest =>
      obtain ⟨s, r', hRun, -, hScanned⟩ := scanned_of_path hRest (fun _ => 0) 0 {}
      have hFresh : ¬ ({} : RequestT).UriMarked := by decide
      rw [Marked, pathRequest, hRun, hScanned.marked, or_iff_left hFresh]
      rfl
  | bare authority =>
      have hStart := (Scanned.start {}).marked
      simp only [Marked, uri, false_iff]
      exact fun hNot => absurd (hStart.mpr (Or.inl hNot)) (by decide)

end Run

end Leactor
