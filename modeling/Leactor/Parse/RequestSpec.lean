import Leactor.Parse.RequestText

/-! A request line that `ngx_http_parse_request_line` accepts is one of the
texts of `RequestLineText`. The invariant of the scan says, for each state,
which part of such a text has been read. -/
namespace Leactor

open Ascii Scan Memory

def Opened (w : List UInt8) : Prop :=
  ∃ skip method n, w = skip ++ (method ++ List.replicate (n + 1) sp) ∧
    (∀ c ∈ skip, c = cr ∨ c = lf) ∧ method ≠ [] ∧ ∀ c ∈ method, IsMethodByte c

def SchemaText (w : List UInt8) : Prop := w ≠ [] ∧ ∀ c ∈ w, IsLetter c

def Fronted (w : List UInt8) : Prop :=
  ∃ o t n, Opened o ∧ w = o ++ (TargetText.bytes t ++ List.replicate (n + 1) sp)

def Ended (w : List UInt8) : Prop :=
  ∀ crlf, ∃ t : RequestLineText, t.bytes = w ++ lineBreak crlf

/-- The letters of `HTTP/` read so far in the states of a version. -/
def RequestLineState.markRead : RequestLineState → List UInt8
  | .httpH => [upperH]
  | .httpHT => [upperH, upperT]
  | .httpHTT => [upperH, upperT, upperT]
  | .httpHTTP => [upperH, upperT, upperT, upperP]
  | _ => replyMark

/-- What has been read in each state. -/
def RequestShape (s : RequestLineState) (w : List UInt8) : Prop :=
  match s with
  | .start => ∀ c ∈ w, c = cr ∨ c = lf
  | .method => ∃ skip method, w = skip ++ method ∧ (∀ c ∈ skip, c = cr ∨ c = lf) ∧ method ≠ [] ∧
      ∀ c ∈ method, IsMethodByte c
  | .spacesBeforeUri => Opened w
  | .schema => ∃ o z, Opened o ∧ SchemaText z ∧ w = o ++ z
  | .schemaSlash => ∃ o z, Opened o ∧ SchemaText z ∧ w = o ++ (z ++ [colon])
  | .schemaSlashSlash => ∃ o z, Opened o ∧ SchemaText z ∧ w = o ++ (z ++ [colon, slash])
  | .hostStart => ∃ o z, Opened o ∧ SchemaText z ∧ w = o ++ (z ++ [colon, slash, slash])
  | .host => ∃ o z v, Opened o ∧ SchemaText z ∧ (∀ c ∈ v, IsHostByte c) ∧
      w = o ++ (z ++ (colon :: slash :: slash :: v))
  | .hostIpLiteral => ∃ o z v, Opened o ∧ SchemaText z ∧ (∀ c ∈ v, IsLiteralByte c) ∧
      w = o ++ (z ++ (colon :: slash :: slash :: lbracket :: v))
  | .hostEnd => ∃ o a, Opened o ∧ w = o ++ AuthorityText.bytes a ∧ a.port = none
  | .port => ∃ o a, Opened o ∧ w = o ++ AuthorityText.bytes a ∧ a.port.isSome
  | .hostHttp09 => ∃ o a n, Opened o ∧ w = o ++ (AuthorityText.bytes a ++ List.replicate (n + 1) sp)
  | .afterSlashInUri | .checkUri | .uri => ∃ o a v, Opened o ∧ PathRest v ∧
      w = o ++ (authorityBytes a ++ slash :: v)
  | .checkUriHttp09 | .http09 => ∃ o a v n, Opened o ∧ PathRest v ∧
      w = o ++ (authorityBytes a ++ slash :: v ++ List.replicate (n + 1) sp)
  | .httpH | .httpHT | .httpHTT | .httpHTTP | .firstMajorDigit =>
      ∃ f, Fronted f ∧ w = f ++ s.markRead
  | .majorDigit => ∃ f c v, Fronted f ∧ (one ≤ c ∧ c ≤ nine) ∧ (∀ d ∈ v, IsDigit d) ∧
      w = f ++ (replyMark ++ c :: v)
  | .firstMinorDigit => ∃ f c v, Fronted f ∧ (one ≤ c ∧ c ≤ nine) ∧ (∀ d ∈ v, IsDigit d) ∧
      w = f ++ (replyMark ++ c :: (v ++ [dot]))
  | .minorDigit => ∃ f v, Fronted f ∧ v.after = 0 ∧ w = f ++ VersionText.bytes v
  | .spacesAfterDigit => ∃ f v, Fronted f ∧ w = f ++ VersionText.bytes v
  | .almostDone => ∃ u, Ended u ∧ w = u ++ [cr]

/-- What has been read when the scan halts. -/
def RequestHalt (w : List UInt8) : LineExit → Prop
  | .done _ => ∃ t : RequestLineText, w = t.bytes
  | .fail _ _ => True

theorem Opened.ended {o : List UInt8} {t : TargetText} {n : Nat} (h : Opened o)
    (hPos : ¬ t.HasPath → 0 < n) : Ended (o ++ (t.bytes ++ List.replicate n sp)) := by
  obtain ⟨skip, method, gap, rfl, hSkip, hNe, hMethod⟩ := h
  intro crlf
  refine ⟨⟨skip, method, gap, t, n, none, crlf, hSkip, hNe, hMethod, ?_⟩, ?_⟩
  · rintro (h | h)
    · exact nomatch h
    · exact hPos h
  · rfl

theorem Fronted.ended {f : List UInt8} (h : Fronted f) (v : VersionText) : Ended (f ++ v.bytes) := by
  obtain ⟨_, t, n, ⟨skip, method, gap, rfl, hSkip, hNe, hMethod⟩, rfl⟩ := h
  intro crlf
  refine ⟨⟨skip, method, gap, t, n + 1, some v, crlf, hSkip, hNe, hMethod, fun _ => Nat.succ_pos n⟩, ?_⟩
  simp only [RequestLineText.bytes, RequestLineText.front, RequestLineText.opening, versionBytes,
    List.append_assoc]

/-- What the verdict on the byte `c` behind `w` has read. -/
def RequestVerdict (w : List UInt8) (c : UInt8) (v : Verdict RequestLineScan LineExit) : Prop :=
  v.All (fun σ => RequestShape σ.1 (w ++ [c])) (RequestHalt (w ++ [c]))

theorem RequestVerdict.ite {w : List UInt8} {c : UInt8} {b : Prop} [Decidable b]
    {v v' : Verdict RequestLineScan LineExit} (hThen : b → RequestVerdict w c v)
    (hElse : ¬ b → RequestVerdict w c v') : RequestVerdict w c (if b then v else v') :=
  Verdict.all_ite hThen hElse

theorem RequestVerdict.fail {w : List UInt8} {c : UInt8} (res : Res) (r : RequestT) :
    RequestVerdict w c (.halt (.fail res r)) := trivial

theorem Ended.carriageReturn {w : List UInt8} {c : UInt8} (h : Ended w) (r : RequestT) (hc : c = cr) :
    RequestVerdict w c (.next (.almostDone, r)) := by
  subst hc
  exact ⟨w, h, rfl⟩

theorem Ended.lineFeed {w : List UInt8} {c : UInt8} (h : Ended w) (r : RequestT) (hc : c = lf) :
    RequestVerdict w c (.halt (.done r)) := by
  subst hc
  obtain ⟨t, ht⟩ := h false
  exact ⟨t, ht.symm⟩

theorem usualBit_plain : ∀ ch : UInt8, usualBit (fun _ => 0) ch → IsPlain ch ∧ ch ≠ sp := by
  apply forall_byte
  decide +kernel

section Path

variable {w : List UInt8} {c : UInt8} {p : Nat} {r : RequestT}

def PathRead (w : List UInt8) : Prop :=
  ∃ o a v, Opened o ∧ PathRest v ∧ w = o ++ (authorityBytes a ++ slash :: v)

theorem PathRead.ended (h : PathRead w) : Ended w := by
  obtain ⟨o, a, v, ho, hv, rfl⟩ := h
  have hEnded := ho.ended (t := .path a v hv) (n := 0) fun hNot => absurd trivial hNot
  simpa [TargetText.bytes] using hEnded

/-- The byte `c` may go on with a path, or end one. -/
structure PathMay (w : List UInt8) (c : UInt8) : Prop where
  goesOn : IsPlain c ∧ c ≠ sp → PathRead (w ++ [c])
  ends : c = sp ∨ c = cr ∨ c = lf → PathRead w

theorem PathRead.may (h : PathRead w) (c : UInt8) : PathMay w c where
  goesOn hByte := by
    obtain ⟨o, a, v, ho, hv, rfl⟩ := h
    exact ⟨o, a, v ++ [c], ho, hv.byte hByte.1 hByte.2, by simp⟩
  ends _ := h

/-- Spaces in a path go on to its next byte. -/
theorem pathMay_of_spaces {o v : List UInt8} {a : Option AuthorityText} {n : Nat} (ho : Opened o)
    (hv : PathRest v) (hSp : c ≠ sp) (hCr : c ≠ cr) (hLf : c ≠ lf) (hH : c ≠ upperH) :
    PathMay (o ++ (authorityBytes a ++ slash :: v ++ List.replicate (n + 1) sp)) c where
  goesOn hByte := ⟨o, a, _, ho, hv.spaces n hByte.1 hByte.2 hH, by simp⟩
  ends hEnds := by tauto

theorem PathMay.stay (h : PathMay w c) {s : RequestLineState} (r : RequestT) (hByte : IsPlain c ∧ c ≠ sp)
    (hs : s.InPath) : RequestVerdict w c (.next (s, r)) := by
  have hShape := h.goesOn hByte
  cases s <;> first | exact hs.elim | exact hShape

theorem PathMay.stay_byte (h : PathMay w c) {s : RequestLineState} {d : UInt8} (r : RequestT) (hc : c = d)
    (hByte : IsPlain d ∧ d ≠ sp) (hs : s.InPath) : RequestVerdict w c (.next (s, r)) :=
  h.stay r (hc ▸ hByte) hs

theorem PathMay.space (h : PathMay w c) {s : RequestLineState} (r : RequestT) (hc : c = sp)
    (hs : s = .checkUriHttp09 ∨ s = .http09) : RequestVerdict w c (.next (s, r)) := by
  obtain ⟨o, a, v, ho, hv, rfl⟩ := h.ends (Or.inl hc)
  subst hc
  rcases hs with rfl | rfl <;> exact ⟨o, a, v, 0, ho, hv, by simp⟩

theorem PathMay.carriageReturn (h : PathMay w c) (r : RequestT) (hc : c = cr) :
    RequestVerdict w c (.next (.almostDone, r)) :=
  (h.ends (Or.inr (Or.inl hc))).ended.carriageReturn r hc

theorem PathMay.lineFeed (h : PathMay w c) (r : RequestT) (hc : c = lf) :
    RequestVerdict w c (.halt (.done r)) :=
  (h.ends (Or.inr (Or.inr hc))).ended.lineFeed r hc

theorem checkUriStep_shape (h : PathMay w c) : RequestVerdict w c (checkUriStep (fun _ => 0) p r c) := by
  unfold checkUriStep
  refine .ite (fun hUsual => h.stay _ (usualBit_plain c hUsual) trivial) fun _ => ?_
  refine .ite (fun hc => h.stay_byte _ hc (by decide) trivial) fun _ => ?_
  refine .ite (fun hc => h.stay_byte _ hc (by decide) trivial) fun _ => ?_
  refine .ite (fun hc => h.space _ hc (Or.inl rfl)) fun hSp => ?_
  refine .ite (fun hc => h.carriageReturn _ hc) fun hCr => ?_
  refine .ite (fun hc => h.lineFeed _ hc) fun hLf => ?_
  refine .ite (fun hc => h.stay_byte _ hc (by decide) trivial) fun _ => ?_
  refine .ite (fun hc => h.stay_byte _ hc (by decide) trivial) fun _ => ?_
  refine .ite (fun hc => h.stay_byte _ hc (by decide) trivial) fun _ => ?_
  refine .ite (fun hc => h.stay_byte _ hc (by decide) trivial) fun _ => ?_
  exact .ite (fun _ => .fail _ _) fun hNul => h.stay _ ⟨⟨hNul, hCr, hLf⟩, hSp⟩ trivial

theorem uriStep_shape (h : PathMay w c) : RequestVerdict w c (uriStep (fun _ => 0) p r c) := by
  unfold uriStep
  refine .ite (fun hUsual => h.stay _ (usualBit_plain c hUsual) trivial) fun _ => ?_
  refine .ite (fun hc => h.space _ hc (Or.inr rfl)) fun hSp => ?_
  refine .ite (fun hc => h.carriageReturn _ hc) fun hCr => ?_
  refine .ite (fun hc => h.lineFeed _ hc) fun hLf => ?_
  refine .ite (fun hc => h.stay_byte _ hc (by decide) trivial) fun _ => ?_
  exact .ite (fun _ => .fail _ _) fun hNul => h.stay _ ⟨⟨hNul, hCr, hLf⟩, hSp⟩ trivial

theorem afterSlashInUriStep_shape (h : PathMay w c) :
    RequestVerdict w c (afterSlashInUriStep (fun _ => 0) p r c) := by
  unfold afterSlashInUriStep
  refine .ite (fun hUsual => h.stay _ (usualBit_plain c hUsual) trivial) fun _ => ?_
  refine .ite (fun hc => h.space _ hc (Or.inl rfl)) fun hSp => ?_
  refine .ite (fun hc => h.carriageReturn _ hc) fun hCr => ?_
  refine .ite (fun hc => h.lineFeed _ hc) fun hLf => ?_
  refine .ite (fun hc => h.stay_byte _ hc (by decide) trivial) fun _ => ?_
  refine .ite (fun hc => h.stay_byte _ hc (by decide) trivial) fun _ => ?_
  refine .ite (fun hc => h.stay_byte _ hc (by decide) trivial) fun _ => ?_
  refine .ite (fun hc => h.stay_byte _ hc (by decide) trivial) fun _ => ?_
  refine .ite (fun hc => h.stay_byte _ hc (by decide) trivial) fun _ => ?_
  refine .ite (fun hc => h.stay_byte _ hc (by decide) trivial) fun _ => ?_
  exact .ite (fun _ => .fail _ _) fun hNul => h.stay _ ⟨⟨hNul, hCr, hLf⟩, hSp⟩ trivial

end Path

/-- One more letter of `HTTP/`. -/
theorem expect_mark {w : List UInt8} {c d : UInt8} {s s' : RequestLineState} {r : RequestT}
    (h : ∃ f, Fronted f ∧ w = f ++ s.markRead) (hMark : s.markRead ++ [d] = s'.markRead)
    (hs : s' = .httpHT ∨ s' = .httpHTT ∨ s' = .httpHTTP ∨ s' = .firstMajorDigit) :
    RequestVerdict w c (expect d s' r c) := by
  obtain ⟨f, hf, rfl⟩ := h
  refine .ite (fun hc => ?_) fun _ => .fail _ _
  subst hc
  have hShape : ∃ g, Fronted g ∧ f ++ s.markRead ++ [c] = g ++ s'.markRead :=
    ⟨f, hf, by rw [List.append_assoc, hMark]⟩
  rcases hs with rfl | rfl | rfl | rfl <;> exact hShape

/-- The words behind a host, in whichever of its states the scan is. -/
theorem hostEndStep_shape {w : List UInt8} {c : UInt8} {p : Nat} {r : RequestT}
    (h : ∃ o a, Opened o ∧ w = o ++ AuthorityText.bytes a ∧ a.port = none) :
    RequestVerdict w c (hostEndStep p r c) := by
  obtain ⟨o, a, ho, rfl, hPort⟩ := h
  unfold hostEndStep
  refine .ite (fun hc => ?_) fun _ => .ite (fun hc => ?_) fun _ => .ite (fun hc => ?_) fun _ => .fail _ _
  · subst hc
    refine ⟨o, { a with port := some [], port_digit := by simp }, ho, ?_, rfl⟩
    simp [AuthorityText.bytes, hPort, portBytes]
  · subst hc
    exact ⟨o, some a, [], ho, .nil, by simp [authorityBytes]⟩
  · subst hc
    exact ⟨o, a, 0, ho, by simp⟩

theorem hostStep_shape {o z v : List UInt8} {c : UInt8} {p : Nat} {r : RequestT} (ho : Opened o)
    (hz : SchemaText z) (hv : ∀ c ∈ v, IsHostByte c) :
    RequestVerdict (o ++ (z ++ (colon :: slash :: slash :: v))) c (hostStep p r c) := by
  have hNext : ∀ r, IsHostByte c →
      RequestVerdict (o ++ (z ++ (colon :: slash :: slash :: v))) c (.next (.host, r)) := fun r hc =>
    ⟨o, z, v ++ [c], ho, hz, by simpa [or_imp, forall_and] using And.intro hv hc, by simp⟩
  unfold hostStep
  refine .ite (fun hc => hNext _ (Or.inl hc)) fun _ => .ite (fun hc => hNext _ (Or.inr hc)) fun _ => ?_
  refine hostEndStep_shape ⟨o, ⟨z, v, none, hz.1, hz.2, .name hv, by simp⟩, ho, ?_, rfl⟩
  simp [AuthorityText.bytes, portBytes]

/-- The bytes behind a target and a space. -/
theorem behindTarget_shape {w : List UInt8} {c : UInt8} {r : RequestT} (hEnded : Ended w) (hFront : Fronted w)
    {s : RequestLineState} {p : Nat} {v : Verdict RequestLineScan LineExit}
    (hSp : c = sp → RequestShape s (w ++ [sp]))
    (hElse : c ≠ sp → c ≠ cr → c ≠ lf → c ≠ upperH → RequestVerdict w c v) :
    RequestVerdict w c
      (if c = sp then .next (s, r)
      else if c = cr then .next (.almostDone, { r with httpMinor := 9 })
      else if c = lf then .halt (.done { r with httpMinor := 9 })
      else if c = upperH then
        .next (.httpH, { r with httpProtocol := { r.httpProtocol with data := p } })
      else v) := by
  refine .ite (fun hc => ?_) fun hNotSp => .ite (hEnded.carriageReturn _) fun hCr =>
    .ite (hEnded.lineFeed _) fun hLf => .ite (fun hc => ?_) fun hH => hElse hNotSp hCr hLf hH
  · subst hc
    exact hSp rfl
  · subst hc
    exact ⟨w, hFront, rfl⟩

/-- Every step reads on in the shape of its state. There is one case for each state of
the parser, and its byte tests split the case. -/
theorem requestShape_step {mem : Mem} {p : Nat} {s : RequestLineState} {r : RequestT} {w : List UInt8}
    {c : UInt8} (h : RequestShape s w) : RequestVerdict w c (requestLineStep mem p (s, r) c) := by
  unfold requestLineStep requestLineStepWith
  cases s with
  | start =>
      refine .ite (fun hc => ?_) fun _ => .ite (fun _ => .fail _ _) fun hMethod => ?_
      · intro d hd
        rcases List.mem_append.mp hd with hOld | hNew
        · exact h d hOld
        · rwa [List.mem_singleton.mp hNew]
      · refine ⟨w, [c], rfl, h, by simp, ?_⟩
        unfold IsMethodByte
        simp only [List.mem_singleton, forall_eq]
        tauto
  | method =>
      obtain ⟨skip, method, rfl, hSkip, hNe, hMethod⟩ := h
      refine .ite (fun hc => ?_) fun _ => .ite (fun _ => .fail _ _) fun hByte => ?_
      · subst hc
        exact ⟨skip, method, 0, by simp, hSkip, hNe, hMethod⟩
      · have hc : IsMethodByte c := by
          unfold IsMethodByte
          tauto
        refine ⟨skip, method ++ [c], by simp, hSkip, by simp, ?_⟩
        simpa [or_imp, forall_and] using And.intro hMethod hc
  | spacesBeforeUri =>
      refine .ite (fun hc => ?_) fun _ => .ite (fun hc => ?_) fun _ => .ite (fun hc => ?_) fun _ =>
        .fail _ _
      · subst hc
        exact ⟨w, none, [], h, .nil, rfl⟩
      · exact ⟨w, [c], h, ⟨by simp, by simpa using hc⟩, rfl⟩
      · obtain ⟨skip, method, n, rfl, hSkip, hNe, hMethod⟩ := h
        subst hc
        refine ⟨skip, method, n + 1, ?_, hSkip, hNe, hMethod⟩
        rw [List.replicate_succ' (n := n + 1)]
        simp
  | schema =>
      obtain ⟨o, z, ho, hz, rfl⟩ := h
      refine .ite (fun hc => ?_) fun _ => .ite (fun hc => ?_) fun _ => .fail _ _
      · refine ⟨o, z ++ [c], ho, ⟨by simp, ?_⟩, by simp⟩
        simpa [or_imp, forall_and] using And.intro hz.2 hc
      · subst hc
        exact ⟨o, z, ho, hz, by simp⟩
  | schemaSlash =>
      obtain ⟨o, z, ho, hz, rfl⟩ := h
      refine .ite (fun hc => ?_) fun _ => .fail _ _
      subst hc
      exact ⟨o, z, ho, hz, by simp⟩
  | schemaSlashSlash =>
      obtain ⟨o, z, ho, hz, rfl⟩ := h
      refine .ite (fun hc => ?_) fun _ => .fail _ _
      subst hc
      exact ⟨o, z, ho, hz, by simp⟩
  | hostStart =>
      obtain ⟨o, z, ho, hz, rfl⟩ := h
      refine .ite (fun hc => ?_) fun _ => hostStep_shape ho hz (by simp)
      subst hc
      exact ⟨o, z, [], ho, hz, by simp, by simp⟩
  | host =>
      obtain ⟨o, z, v, ho, hz, hv, rfl⟩ := h
      exact hostStep_shape ho hz hv
  | hostEnd => exact hostEndStep_shape h
  | hostIpLiteral =>
      obtain ⟨o, z, v, ho, hz, hv, rfl⟩ := h
      have hNext : IsLiteralByte c →
          RequestShape .hostIpLiteral (o ++ (z ++ (colon :: slash :: slash :: lbracket :: v)) ++ [c]) :=
        fun hc => ⟨o, z, v ++ [c], ho, hz, by simpa [or_imp, forall_and] using And.intro hv hc, by simp⟩
      refine .ite (fun hc => hNext (Or.inl hc)) fun _ => .ite (fun hc => hNext (Or.inr (Or.inl hc)))
        fun _ => .ite (fun hc => ?_) fun _ =>
        .ite (fun hc => hNext (Or.inr (Or.inr (Or.inl hc)))) fun _ =>
        .ite (fun hc => hNext (Or.inr (Or.inr (Or.inr hc)))) fun _ => .fail _ _
      subst hc
      refine ⟨o, ⟨z, _, none, hz.1, hz.2, .literal hv, by simp⟩, ho, ?_, rfl⟩
      simp [AuthorityText.bytes, portBytes]
  | port =>
      obtain ⟨o, a, ho, rfl, hPort⟩ := h
      obtain ⟨digits, hDigits⟩ := Option.isSome_iff_exists.mp hPort
      refine .ite (fun hc => ?_) fun _ => .ite (fun hc => ?_) fun _ => .ite (fun hc => ?_) fun _ =>
        .fail _ _
      · refine ⟨o, { a with port := some (digits ++ [c]), port_digit := ?_ }, ho, ?_, rfl⟩
        · rintro _ ⟨⟩
          simpa [or_imp, forall_and] using And.intro (a.port_digit digits hDigits) hc
        · simp [AuthorityText.bytes, hDigits, portBytes]
      · subst hc
        exact ⟨o, some a, [], ho, .nil, by simp [authorityBytes]⟩
      · subst hc
        exact ⟨o, a, 0, ho, by simp⟩
  | hostHttp09 =>
      obtain ⟨o, a, n, ho, rfl⟩ := h
      refine behindTarget_shape (ho.ended (t := .bare a) fun _ => Nat.succ_pos n)
        ⟨o, .bare a, n, ho, rfl⟩ (fun _ => ?_) fun _ _ _ _ => .fail _ _
      refine ⟨o, a, n + 1, ho, ?_⟩
      rw [List.replicate_succ' (n := n + 1)]
      simp [TargetText.bytes]
  | afterSlashInUri => exact afterSlashInUriStep_shape (PathRead.may h c)
  | checkUri => exact checkUriStep_shape (PathRead.may h c)
  | uri => exact uriStep_shape (PathRead.may h c)
  | checkUriHttp09 | http09 =>
      obtain ⟨o, a, v, n, ho, hv, rfl⟩ := h
      have hEnded := ho.ended (t := .path a v hv) (n := n + 1) fun _ => Nat.succ_pos n
      refine behindTarget_shape hEnded ⟨o, .path a v hv, n, ho, rfl⟩ (fun _ => ?_)
        fun hSp hCr hLf hH => ?_
      · refine ⟨o, a, v, n + 1, ho, hv, ?_⟩
        rw [List.replicate_succ' (n := n + 1)]
        simp [TargetText.bytes]
      · first
          | exact checkUriStep_shape (pathMay_of_spaces ho hv hSp hCr hLf hH)
          | exact uriStep_shape (pathMay_of_spaces ho hv hSp hCr hLf hH)
  | httpH => exact expect_mark h rfl (by simp)
  | httpHT => exact expect_mark h rfl (by simp)
  | httpHTT => exact expect_mark h rfl (by simp)
  | httpHTTP => exact expect_mark h rfl (by simp)
  | firstMajorDigit =>
      obtain ⟨f, hf, rfl⟩ := h
      refine .ite (fun _ => .fail _ _) fun hc => ?_
      obtain ⟨hLow, hHigh⟩ := not_or.mp hc
      exact ⟨f, c, [], hf, ⟨UInt8.not_lt.mp hLow, UInt8.not_lt.mp hHigh⟩, by simp,
        by simp [RequestLineState.markRead]⟩
  | majorDigit =>
      obtain ⟨f, m, v, hf, hm, hv, rfl⟩ := h
      refine .ite (fun hc => ?_) fun _ => .ite (fun _ => .fail _ _) fun hc => ?_
      · subst hc
        exact ⟨f, m, v, hf, hm, hv, by simp⟩
      · refine ⟨f, m, v ++ [c], hf, hm, ?_, by simp⟩
        simpa [or_imp, forall_and] using And.intro hv (not_not.mp hc)
  | firstMinorDigit =>
      obtain ⟨f, m, v, hf, hm, hv, rfl⟩ := h
      refine .ite (fun _ => .fail _ _) fun hc => ?_
      refine ⟨f, ⟨m, v, c, [], 0, hm, hv, not_not.mp hc, by simp⟩, hf, rfl, ?_⟩
      simp [VersionText.bytes, VersionText.numbers]
  | minorDigit =>
      obtain ⟨f, v, hf, hAfter, rfl⟩ := h
      refine .ite ((hf.ended v).carriageReturn _) fun _ => .ite ((hf.ended v).lineFeed _) fun _ =>
        .ite (fun hc => ?_) fun _ => .ite (fun _ => .fail _ _) fun hc => ?_
      · subst hc
        refine ⟨f, { v with after := 1 }, hf, ?_⟩
        simp [VersionText.bytes, VersionText.numbers, hAfter]
      · refine ⟨f, { v with minorRest := v.minorRest ++ [c], minorRest_digit := ?_ }, hf, hAfter, ?_⟩
        · simpa [or_imp, forall_and] using And.intro v.minorRest_digit (not_not.mp hc)
        · simp [VersionText.bytes, VersionText.numbers, hAfter]
  | spacesAfterDigit =>
      obtain ⟨f, v, hf, rfl⟩ := h
      refine .ite (fun hc => ?_) fun _ => .ite ((hf.ended v).carriageReturn _) fun _ =>
        .ite ((hf.ended v).lineFeed _) fun _ => .fail _ _
      subst hc
      refine ⟨f, { v with after := v.after + 1 }, hf, ?_⟩
      simp [VersionText.bytes, VersionText.numbers, List.replicate_succ']
  | almostDone =>
      obtain ⟨u, hu, rfl⟩ := h
      refine .ite (fun hc => ?_) fun _ => .fail _ _
      subst hc
      obtain ⟨t, ht⟩ := hu true
      exact ⟨t, by rw [ht, List.append_assoc]; rfl⟩

/-- The scan comes to the label `done` only behind a text of a request line. -/
theorem exists_requestLineText_of_run {mem : Mem} {r q : RequestT} {b : LtBuffer} {x : Nat}
    (hRun : run (requestLineStep mem) b.pos (.start, r) (b.unread mem) = .halted x (.done q)) :
    ∃ (t : RequestLineText) (rest : List UInt8), b.unread mem = t.bytes ++ rest := by
  by_cases hPos : b.pos ≤ b.last
  · have hAll := run_slice_all (M := requestLineStep mem) (m := mem) (q := b.last) (s := (.start, r))
      (I := fun x σ => RequestShape σ.1 (slice mem b.pos x))
      (Q := fun x e => RequestHalt (slice mem b.pos (x + 1)) e)
      (fun x σ hLow _ _ hShape => by
        rw [slice_succ hLow]
        exact requestShape_step hShape) hPos (by simp [RequestShape])
    rw [LtBuffer.unread] at hRun
    rw [hRun] at hAll
    obtain ⟨hLow, hHigh, t, ht⟩ := hAll
    exact ⟨t, slice mem (x + 1) b.last, by rw [← ht, slice_append (by omega) (by omega)]; rfl⟩
  · rw [LtBuffer.unread, slice_of_le (by omega)] at hRun
    cases hRun

/-- The parser accepts only the texts of request lines. -/
theorem exists_requestLineText {mem : Mem} {r r' : RequestT} {b b' : LtBuffer} (hState : r.state = 0)
    (h : ngxHttpParseRequestLine mem r b = (.lok, r', b')) :
    ∃ (t : RequestLineText) (rest : List UInt8), b.unread mem = t.bytes ++ rest := by
  obtain ⟨x, q, hRun, -, -⟩ := exists_run_of_lok hState h
  exact exists_requestLineText_of_run hRun

/-- The text of an accepted line, and what the parser has stored of it. -/
theorem requestLineText_of_lok {mem : Mem} {r r' : RequestT} {b b' : LtBuffer} (hState : r.state = 0)
    (h : ngxHttpParseRequestLine mem r b = (.lok, r', b')) :
    ∃ (t : RequestLineText) (rest : List UInt8) (q : RequestT), b.unread mem = t.bytes ++ rest ∧
      ReadsRequestLine mem t b.pos r q ∧ r' = (requestLineDone (b.pos + t.bytes.length - 1) q).2 ∧
      b' = { b with pos := b.pos + t.bytes.length } := by
  obtain ⟨t, rest, hUnread⟩ := exists_requestLineText hState h
  obtain ⟨q, hReads, hParse⟩ := ngxHttpParseRequestLine_text t hState hUnread
  rw [hParse] at h
  simp only [Prod.mk.injEq] at h
  exact ⟨t, rest, q, hUnread, hReads, h.2.1.symm, h.2.2.symm⟩

end Leactor
