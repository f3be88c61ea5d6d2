import Leactor.Parse.RequestView

/-! The request lines that `ngx_http_parse_request_line` finishes, and its run
over one of them. A line is a method, a target and possibly a version, with
spaces between them; an absolute target names a host in front of its path. -/
namespace Leactor

open Ascii Scan Memory

def IsMethodByte (ch : UInt8) : Prop := IsUpper ch ∨ ch = underscore

def IsHostByte (ch : UInt8) : Prop := IsLetter ch ∨ IsDigit ch ∨ ch = dot ∨ ch = minus

def IsLiteralByte (ch : UInt8) : Prop :=
  (IsDigit ch ∨ IsLetter ch) ∨ ch = colon ∨ (ch = minus ∨ ch = dot ∨ ch = underscore ∨ ch = tilde) ∨
    (ch = bang ∨ ch = dollar ∨ ch = amp ∨ ch = quote ∨ ch = lparen ∨ ch = rparen ∨ ch = star ∨
      ch = plus ∨ ch = comma ∨ ch = semicolon ∨ ch = equal)

instance : DecidablePred IsMethodByte := fun _ => inferInstanceAs (Decidable (_ ∨ _))
instance : DecidablePred IsHostByte := fun _ => inferInstanceAs (Decidable (_ ∨ _))
instance : DecidablePred IsLiteralByte := fun _ => inferInstanceAs (Decidable (_ ∨ _))

/-- The host of an absolute target: a name, possibly empty, or an IP literal. -/
inductive HostText : List UInt8 → Prop where
  | name {w : List UInt8} (hBytes : ∀ c ∈ w, IsHostByte c) : HostText w
  | literal {w : List UInt8} (hBytes : ∀ c ∈ w, IsLiteralByte c) :
      HostText (lbracket :: (w ++ [rbracket]))

/-- The schema, the host and the port of an absolute target. -/
structure AuthorityText where
  schema : List UInt8
  host : List UInt8
  port : Option (List UInt8)
  schema_ne : schema ≠ []
  schema_letter : ∀ c ∈ schema, IsLetter c
  host_text : HostText host
  port_digit : ∀ w, port = some w → ∀ c ∈ w, IsDigit c

def portBytes : Option (List UInt8) → List UInt8
  | none => []
  | some w => colon :: w

def AuthorityText.bytes (a : AuthorityText) : List UInt8 :=
  a.schema ++ (colon :: slash :: slash :: (a.host ++ portBytes a.port))

/-- A path behind its first slash. Spaces may stand in it, unless an `H` follows. -/
inductive PathRest : List UInt8 → Prop where
  | nil : PathRest []
  | byte {w : List UInt8} {c : UInt8} (hRest : PathRest w) (hPlain : IsPlain c) (hSp : c ≠ sp) :
      PathRest (w ++ [c])
  | spaces {w : List UInt8} {c : UInt8} (n : Nat) (hRest : PathRest w) (hPlain : IsPlain c)
      (hSp : c ≠ sp) (hH : c ≠ upperH) : PathRest (w ++ (List.replicate (n + 1) sp ++ [c]))

inductive TargetText where
  | path (authority : Option AuthorityText) (rest : List UInt8) (hRest : PathRest rest)
  | bare (authority : AuthorityText)

def authorityBytes : Option AuthorityText → List UInt8
  | none => []
  | some a => a.bytes

namespace TargetText

def bytes : TargetText → List UInt8
  | path authority rest _ => authorityBytes authority ++ (slash :: rest)
  | bare authority => authority.bytes

/-- Where the URI starts in the target. Without a path it is a slash of `//`. -/
def uriOffset : TargetText → Nat
  | path authority _ _ => (authorityBytes authority).length
  | bare authority => authority.schema.length + 1

def uri : TargetText → List UInt8
  | path _ rest _ => slash :: rest
  | bare _ => [slash]

def HasPath : TargetText → Prop
  | path .. => True
  | bare _ => False

end TargetText

def decimal (n : Int) (w : List UInt8) : Int := w.foldl (fun n c => wrap32 (n * 10 + digitValue c)) n

structure VersionText where
  major : UInt8
  majorRest : List UInt8
  minor : UInt8
  minorRest : List UInt8
  after : Nat
  major_le : one ≤ major ∧ major ≤ nine
  majorRest_digit : ∀ c ∈ majorRest, IsDigit c
  minor_digit : IsDigit minor
  minorRest_digit : ∀ c ∈ minorRest, IsDigit c

namespace VersionText

def numbers (v : VersionText) : List UInt8 :=
  v.major :: (v.majorRest ++ (dot :: v.minor :: v.minorRest))

def bytes (v : VersionText) : List UInt8 :=
  replyMark ++ (v.numbers ++ List.replicate v.after sp)

def majorValue (v : VersionText) : Int := decimal (digitValue v.major) v.majorRest

def minorValue (v : VersionText) : Int := decimal (digitValue v.minor) v.minorRest

end VersionText

def versionBytes : Option VersionText → List UInt8
  | none => []
  | some v => v.bytes

structure RequestLineText where
  skip : List UInt8
  method : List UInt8
  gap : Nat
  target : TargetText
  space : Nat
  version : Option VersionText
  crlf : Bool
  skip_break : ∀ c ∈ skip, c = cr ∨ c = lf
  method_ne : method ≠ []
  method_byte : ∀ c ∈ method, IsMethodByte c
  space_pos : version.isSome ∨ ¬ target.HasPath → 0 < space

namespace RequestLineText

def opening (t : RequestLineText) : List UInt8 :=
  t.skip ++ (t.method ++ List.replicate (t.gap + 1) sp)

def front (t : RequestLineText) : List UInt8 :=
  t.opening ++ (t.target.bytes ++ List.replicate t.space sp)

def bytes (t : RequestLineText) : List UInt8 :=
  t.front ++ (versionBytes t.version ++ lineBreak t.crlf)

end RequestLineText

/-- The lengths of a line's parts. -/
theorem RequestLineText.length_bytes (t : RequestLineText) :
    t.opening.length = t.skip.length + t.method.length + t.gap + 1 ∧ 0 < t.method.length ∧
      t.front.length = t.opening.length + t.target.bytes.length + t.space ∧
      t.bytes.length = t.front.length + (versionBytes t.version).length + (lineBreak t.crlf).length := by
  refine ⟨?_, List.length_pos_iff.mpr t.method_ne, ?_, ?_⟩
  · simp only [opening, List.length_append, List.length_replicate]
    omega
  · simp only [front, List.length_append, List.length_replicate]
    omega
  · simp only [bytes, List.length_append]
    omega

theorem lineBreak_length (crlf : Bool) : (lineBreak crlf).length = if crlf then 2 else 1 := by
  cases crlf <;> rfl

def RequestT.forgetLine (r : RequestT) : RequestT :=
  { r with
    requestStart := 0, requestEnd := 0, methodEnd := 0, method := 0, uriStart := 0, uriEnd := 0
    uriExt := 0, complexUri := 0, quotedUri := 0, plusInUri := 0, spaceInUri := 0, argsStart := 0
    schemaStart := 0, schemaEnd := 0, hostStart := 0, hostEnd := 0, portEnd := 0
    httpProtocol := { r.httpProtocol with data := 0 }, httpMajor := 0, httpMinor := 0 }

def RequestT.forgetPath (r : RequestT) : RequestT :=
  { r with
    uriEnd := 0, uriExt := 0, complexUri := 0, quotedUri := 0, plusInUri := 0, spaceInUri := 0
    argsStart := 0 }

def RequestT.forgetAuthority (r : RequestT) : RequestT :=
  { r with schemaStart := 0, schemaEnd := 0, hostStart := 0, hostEnd := 0, portEnd := 0 }

def RequestT.forgetTarget (r : RequestT) : RequestT :=
  { r.forgetPath.forgetAuthority with uriStart := 0 }

def RequestT.forgetEnding (r : RequestT) : RequestT :=
  { r with
    uriEnd := 0, httpProtocol := { r.httpProtocol with data := 0 }, httpMajor := 0, httpMinor := 0
    requestEnd := 0 }

/-- The request is marked as one whose URI needs a decoding. -/
def RequestT.UriMarked (r : RequestT) : Prop := r.complexUri ≠ 0 ∨ r.quotedUri ≠ 0

instance : DecidablePred RequestT.UriMarked := fun _ => inferInstanceAs (Decidable (_ ∨ _))

def pathRequest (rest : List UInt8) : RequestT :=
  match run (requestLineStep fun _ => 0) 0 (.afterSlashInUri, {}) rest with
  | .pending (_, r) => r
  | .halted _ _ => {}

def TargetText.Marked : TargetText → Prop
  | path _ rest _ => (pathRequest rest).UriMarked
  | bare _ => False

section Bytes

theorem IsMethodByte.ne : ∀ {ch : UInt8}, IsMethodByte ch → ch ≠ cr ∧ ch ≠ lf ∧ ch ≠ sp := by
  intro ch
  revert ch
  apply forall_byte
  decide +kernel

theorem major_one : one ≤ one ∧ one ≤ nine := by decide

theorem digit_one : IsDigit one := by decide

theorem digit_zero : IsDigit zero := by decide

theorem no_digits : ∀ c ∈ ([] : List UInt8), IsDigit c := List.forall_mem_nil _

theorem digit_ne : ∀ ch : UInt8, IsDigit ch → ch ≠ dot ∧ ch ≠ cr ∧ ch ≠ lf ∧ ch ≠ sp := by
  apply forall_byte
  decide +kernel

theorem digitValue_bounds : ∀ c : UInt8, IsDigit c → 0 ≤ digitValue c ∧ digitValue c ≤ 9 := by
  apply forall_byte
  decide +kernel

theorem majorDigit_bounds : ∀ c : UInt8, one ≤ c ∧ c ≤ nine → 1 ≤ digitValue c ∧ digitValue c ≤ 9 := by
  apply forall_byte
  decide +kernel

theorem letter_ne_slash : ∀ ch : UInt8, IsLetter ch → ch ≠ slash := by
  apply forall_byte
  decide +kernel

theorem IsHostByte.ne : ∀ {ch : UInt8}, IsHostByte ch → ch ≠ lbracket := by
  intro ch
  revert ch
  apply forall_byte
  decide +kernel

theorem IsLiteralByte.ne : ∀ {ch : UInt8}, IsLiteralByte ch → ch ≠ rbracket := by
  intro ch
  revert ch
  apply forall_byte
  decide +kernel

end Bytes

variable (mem : Mem) {p : Nat}

/-- Line terminators in front of the method are passed over. -/
theorem run_skip {r : RequestT} {w : List UInt8} (h : ∀ c ∈ w, c = cr ∨ c = lf) :
    ∃ a, run (requestLineStep mem) p (.start, r) w = .pending (.start, { r with requestStart := a }) := by
  obtain ⟨⟨s, r'⟩, hRun, rfl, a, rfl⟩ := run_keeps (M := requestLineStep mem) (p := p)
    (s := (.start, r)) (w := w) (I := fun σ => σ.1 = .start ∧ ∃ a, σ.2 = { r with requestStart := a })
    (by
      rintro q ⟨s, r'⟩ c hc ⟨rfl, a, rfl⟩
      exact ⟨_, if_pos (h c hc), rfl, q, rfl⟩)
    ⟨rfl, r.requestStart, rfl⟩
  exact ⟨a, hRun⟩

/-- The method and the spaces behind it. The method is looked up at the first of these
spaces, and an unknown one leaves the field as it was. -/
theorem run_method {r : RequestT} {w : List UInt8} (gap : Nat) (hNe : w ≠ [])
    (h : ∀ c ∈ w, IsMethodByte c) :
    run (requestLineStep mem) p (.start, r) (w ++ List.replicate (gap + 1) sp) =
      .pending (.spacesBeforeUri,
        { r with
          requestStart := p
          methodEnd := p + w.length - 1
          method := (methodNumber mem p (p + w.length)).getD r.method }) := by
  obtain ⟨c, w, rfl⟩ := List.exists_cons_of_ne_nil hNe
  have hFirst : requestLineStep mem p (.start, r) c = .next (.method, { r with requestStart := p }) := by
    have hc := h c List.mem_cons_self
    have hByte := hc.ne
    simp only [requestLineStep, requestLineStepWith, hByte.1, hByte.2.1, or_self, if_false]
    rw [if_neg]
    unfold IsMethodByte at hc
    tauto
  have hRest : run (requestLineStep mem) (p + 1) (.method, { r with requestStart := p }) w =
      .pending (.method, { r with requestStart := p }) := by
    apply run_const
    intro q d hd
    have hc := h d (List.mem_cons_of_mem c hd)
    simp only [requestLineStep, requestLineStepWith, hc.ne.2.2, if_false]
    rw [if_neg]
    unfold IsMethodByte at hc
    tauto
  have hSpace : ∀ x, requestLineStep mem x (.method, { r with requestStart := p }) sp =
      .next (.spacesBeforeUri,
        { r with
          requestStart := p
          methodEnd := x - 1
          method := (methodNumber mem p x).getD r.method }) := fun _ => rfl
  rw [List.cons_append, run_cons_next _ hFirst, run_append_of_pending _ hRest, List.replicate_succ,
    show p + 1 + w.length = p + (c :: w).length by rw [List.length_cons]; omega,
    run_cons_next _ (hSpace _)]
  apply run_const
  intro q d hd
  rw [List.eq_of_mem_replicate hd]
  simp [requestLineStep, requestLineStepWith, sp, slash, IsLetter, lowerA]

def RequestLineState.InAuthority : RequestLineState → Prop
  | .hostStart | .host | .hostEnd | .port => True
  | _ => False

theorem requestLineStep_authority_slash {s : RequestLineState} (hs : s.InAuthority) (r : RequestT) :
    ∃ r', requestLineStep mem p (s, r) slash = .next (.afterSlashInUri, r') ∧ r'.uriStart = p ∧
      r'.forgetAuthority = ({ r with uriStart := p } : RequestT).forgetAuthority := by
  cases s <;> first | exact hs.elim | exact ⟨_, rfl, rfl, rfl⟩

theorem requestLineStep_authority_space {s : RequestLineState} (hs : s.InAuthority) (r : RequestT) :
    ∃ r', requestLineStep mem p (s, r) sp = .next (.hostHttp09, r') ∧
      r'.forgetAuthority =
        ({ r with uriStart := r.schemaEnd + 1, uriEnd := r.schemaEnd + 2 } : RequestT).forgetAuthority := by
  cases s <;> first | exact hs.elim | exact ⟨_, rfl, rfl⟩

/-- The host of an authority, which may be empty, a name, or an address in brackets. The
state behind it tells which. -/
theorem run_host {r : RequestT} {w : List UInt8} (h : HostText w) :
    ∃ s r', run (requestLineStep mem) p (.hostStart, r) w = .pending (s, r') ∧
      (s = .hostStart ∨ s = .host ∨ s = .hostEnd) ∧ r'.forgetAuthority = r.forgetAuthority ∧
      r'.schemaEnd = r.schemaEnd := by
  cases h with
  | name hBytes =>
      obtain ⟨⟨s, r'⟩, hRun, hState, hFrame, hEnd⟩ := run_keeps (M := requestLineStep mem) (p := p)
        (s := (.hostStart, r)) (w := w)
        (I := fun σ => (σ.1 = .hostStart ∨ σ.1 = .host) ∧
          σ.2.forgetAuthority = r.forgetAuthority ∧ σ.2.schemaEnd = r.schemaEnd)
        (by
          rintro q ⟨s, r'⟩ c hc ⟨hs, hFrame, hEnd⟩
          have hByte := hBytes c hc
          have hStep : ∀ r', hostStep q r' c = .next (.host, r') := by
            intro r'
            unfold hostStep
            by_cases hLetter : IsLetter c
            · rw [if_pos hLetter]
            · rw [if_neg hLetter, if_pos (hByte.resolve_left hLetter)]
          rcases hs with rfl | rfl
          · refine ⟨(.host, { r' with hostStart := q }), ?_, Or.inr rfl, hFrame, hEnd⟩
            simp only [requestLineStep, requestLineStepWith, hByte.ne, if_false, hStep]
          · exact ⟨(.host, r'), hStep r', Or.inr rfl, hFrame, hEnd⟩)
        ⟨Or.inl rfl, rfl, rfl⟩
      exact ⟨s, r', hRun, hState.imp_right Or.inl, hFrame, hEnd⟩
  | @literal w hBytes =>
      have hOpen : requestLineStep mem p (.hostStart, r) lbracket =
          .next (.hostIpLiteral, { r with hostStart := p }) := rfl
      have hRun : run (requestLineStep mem) (p + 1) (.hostIpLiteral, { r with hostStart := p }) w =
          .pending (.hostIpLiteral, { r with hostStart := p }) := by
        apply run_const
        intro q c hc
        have hByte := hBytes c hc
        simp only [requestLineStep, requestLineStepWith, hByte.ne, if_false]
        unfold IsLiteralByte at hByte
        by_cases h₁ : IsDigit c ∨ IsLetter c
        · rw [if_pos h₁]
        by_cases h₂ : c = colon
        · rw [if_neg h₁, if_pos h₂]
        by_cases h₃ : c = minus ∨ c = dot ∨ c = underscore ∨ c = tilde
        · rw [if_neg h₁, if_neg h₂, if_pos h₃]
        rw [if_neg h₁, if_neg h₂, if_neg h₃, if_pos (by tauto)]
      refine ⟨.hostEnd, { r with hostStart := p }, ?_, Or.inr (Or.inr rfl), rfl, rfl⟩
      rw [run_cons_next _ hOpen, run_append_of_pending _ hRun]
      rfl

/-- The authority of an absolute target: the schema, the two slashes, the host and the
port. -/
theorem run_authority {r : RequestT} (a : AuthorityText) :
    ∃ s r', run (requestLineStep mem) p (.spacesBeforeUri, r) a.bytes = .pending (s, r') ∧
      s.InAuthority ∧ r'.forgetAuthority = r.forgetAuthority ∧ r'.schemaEnd = p + a.schema.length := by
  obtain ⟨schema, host, port, hNe, hLetter, hHost, hPort⟩ := a
  obtain ⟨c, w, rfl⟩ := List.exists_cons_of_ne_nil hNe
  have hc := hLetter c List.mem_cons_self
  have hFirst : requestLineStep mem p (.spacesBeforeUri, r) c = .next (.schema, { r with schemaStart := p }) := by
    simp only [requestLineStep, requestLineStepWith, letter_ne_slash c hc, hc, if_false, if_true]
  have hRest : run (requestLineStep mem) (p + 1) (.schema, { r with schemaStart := p }) w =
      .pending (.schema, { r with schemaStart := p }) :=
    run_const fun q d hd => if_pos (hLetter d (List.mem_cons_of_mem c hd))
  obtain ⟨s, r', hRun, hs, hFrame, hEnd⟩ := run_host mem (p := p + 1 + w.length + 1 + 1 + 1)
    (r := { r with schemaStart := p, schemaEnd := p + 1 + w.length }) hHost
  have hSchemaEnd : r'.schemaEnd = p + (c :: w).length := by
    rw [hEnd, List.length_cons]
    simp only
    omega
  have hColon : requestLineStep mem (p + 1 + w.length) (.schema, { r with schemaStart := p }) colon =
      .next (.schemaSlash, { r with schemaStart := p, schemaEnd := p + 1 + w.length }) := rfl
  have hSlashes : ∀ x r, requestLineStep mem x (.schemaSlash, r) slash = .next (.schemaSlashSlash, r) ∧
      requestLineStep mem x (.schemaSlashSlash, r) slash = .next (.hostStart, r) := fun _ _ => ⟨rfl, rfl⟩
  simp only [AuthorityText.bytes, List.cons_append]
  rw [run_cons_next _ hFirst, run_append_of_pending _ hRest, run_cons_next _ hColon,
    run_cons_next _ (hSlashes _ _).1, run_cons_next _ (hSlashes _ _).2, run_append_of_pending _ hRun]
  cases port with
  | none =>
      refine ⟨s, r', rfl, ?_, hFrame, hSchemaEnd⟩
      rcases hs with rfl | rfl | rfl <;> trivial
  | some digits =>
      have hStep : ∀ x, ∃ r'', requestLineStep mem x (s, r') colon = .next (.port, r'') ∧
          r''.forgetAuthority = r'.forgetAuthority ∧ r''.schemaEnd = r'.schemaEnd := by
        intro x
        rcases hs with rfl | rfl | rfl <;> exact ⟨_, rfl, rfl, rfl⟩
      obtain ⟨r'', hColon', hFrame', hEnd'⟩ := hStep (p + 1 + w.length + 1 + 1 + 1 + host.length)
      refine ⟨.port, r'', ?_, trivial, hFrame'.trans hFrame, hEnd'.trans hSchemaEnd⟩
      rw [portBytes, run_cons_next _ hColon']
      exact run_const fun q d hd => if_pos (hPort digits rfl d hd)

def RequestLineState.InPath : RequestLineState → Prop
  | .afterSlashInUri | .checkUri | .uri => True
  | _ => False

/-- The states behind a target and a space, in which a version may follow. -/
def RequestLineState.BeforeVersion : RequestLineState → Prop
  | .hostHttp09 | .checkUriHttp09 | .http09 => True
  | _ => False

/-- The effect of a piece of a path on the request: it may set the two flags. -/
structure PathEffect (f : Nat → RequestT → RequestT) (complex quoted : Bool) : Prop where
  frame : ∀ p r, (f p r).forgetPath = r.forgetPath
  complex_eq : ∀ p r, (f p r).complexUri = if complex then 1 else r.complexUri
  quoted_eq : ∀ p r, (f p r).quotedUri = if quoted then 1 else r.quotedUri

theorem PathEffect.id : PathEffect (fun _ r => r) false false :=
  ⟨fun _ _ => rfl, fun _ _ => rfl, fun _ _ => rfl⟩

theorem PathEffect.comp {f g : Nat → RequestT → RequestT} {c c' q q' : Bool} {n : Nat}
    (hf : PathEffect f c q) (hg : PathEffect g c' q') :
    PathEffect (fun p r => g (p + n) (f p r)) (c || c') (q || q') where
  frame p r := (hg.frame _ _).trans (hf.frame p r)
  complex_eq p r := by
    rw [hg.complex_eq, hf.complex_eq]
    cases c <;> cases c' <;> rfl
  quoted_eq p r := by
    rw [hg.quoted_eq, hf.quoted_eq]
    cases q <;> cases q' <;> rfl

/-- A step that goes on inside the path, wherever the scan stands. -/
def PathStep (V : Nat → RequestT → Verdict RequestLineScan LineExit) : Prop :=
  ∃ t f, (∀ p r, V p r = .next (t, f p r)) ∧ t.InPath ∧ ∃ complex quoted, PathEffect f complex quoted

theorem PathStep.ite {V W : Nat → RequestT → Verdict RequestLineScan LineExit} {b : Prop} [Decidable b]
    (hThen : b → PathStep V) (hElse : ¬ b → PathStep W) :
    PathStep fun p r => if b then V p r else W p r := by
  by_cases h : b
  · simpa only [h, if_true] using hThen h
  · simpa only [h, if_false] using hElse h

/-- A byte inside a path. -/
theorem requestLineStep_path {s : RequestLineState} {c : UInt8} (mem : Mem) (hs : s.InPath)
    (hPlain : IsPlain c) (hSp : c ≠ sp) : PathStep fun p r => requestLineStep mem p (s, r) c := by
  obtain ⟨hNul, hCr, hLf⟩ := hPlain
  cases s with
  | afterSlashInUri | checkUri | uri =>
      simp only [requestLineStep, requestLineStepWith, afterSlashInUriStep, checkUriStep, uriStep]
      repeat' refine PathStep.ite (fun _ => ?_) fun _ => ?_
      all_goals first
        | contradiction
        | exact ⟨_, _, fun _ _ => rfl, trivial, false, false, fun _ _ => rfl, fun _ _ => rfl, fun _ _ => rfl⟩
        | exact ⟨_, _, fun _ _ => rfl, trivial, true, false, fun _ _ => rfl, fun _ _ => rfl, fun _ _ => rfl⟩
        | exact ⟨_, _, fun _ _ => rfl, trivial, false, true, fun _ _ => rfl, fun _ _ => rfl, fun _ _ => rfl⟩
  | _ => exact hs.elim

/-- A space behind a path. -/
theorem requestLineStep_path_space {s : RequestLineState} (hs : s.InPath) :
    ∃ t : RequestLineState, (t = .checkUriHttp09 ∨ t = .http09) ∧
      ∀ mem p r, requestLineStep mem p (s, r) sp = .next (t, { r with uriEnd := p }) := by
  cases s with
  | afterSlashInUri | checkUri => exact ⟨_, Or.inl rfl, fun _ _ _ => rfl⟩
  | uri => exact ⟨_, Or.inr rfl, fun _ _ _ => rfl⟩
  | _ => exact hs.elim

/-- A byte that takes a scan behind a space back into the path. -/
theorem requestLineStep_path_again {s : RequestLineState} {c : UInt8} (mem : Mem)
    (hs : s = .checkUriHttp09 ∨ s = .http09) (hPlain : IsPlain c) (hSp : c ≠ sp) (hH : c ≠ upperH) :
    PathStep fun p r => requestLineStep mem p (s, r) c := by
  obtain ⟨hNul, hCr, hLf⟩ := hPlain
  rcases hs with rfl | rfl <;>
    simp only [requestLineStep, requestLineStepWith, checkUriStep, uriStep] <;>
    (repeat' refine PathStep.ite (fun _ => ?_) fun _ => ?_) <;>
    first
      | contradiction
      | exact ⟨_, _, fun _ _ => rfl, trivial, false, false, fun _ _ => rfl, fun _ _ => rfl, fun _ _ => rfl⟩
      | exact ⟨_, _, fun _ _ => rfl, trivial, true, false, fun _ _ => rfl, fun _ _ => rfl, fun _ _ => rfl⟩
      | exact ⟨_, _, fun _ _ => rfl, trivial, false, true, fun _ _ => rfl, fun _ _ => rfl, fun _ _ => rfl⟩

/-- Spaces behind a target, in front of a version. -/
theorem run_spaces {s : RequestLineState} {r : RequestT} (hs : s.BeforeVersion) (n : Nat) :
    run (requestLineStep mem) p (s, r) (List.replicate n sp) = .pending (s, r) := by
  apply run_const
  intro q c hc
  rw [List.eq_of_mem_replicate hc]
  cases s <;> first | exact hs.elim | rfl

/-- The run over a path behind its first slash. Its effect depends on the bytes of the
path only, not on where they stand. -/
theorem run_path {w : List UInt8} (h : PathRest w) :
    ∃ t f, t.InPath ∧ (∃ complex quoted, PathEffect f complex quoted) ∧
      ∀ mem p r, run (requestLineStep mem) p (.afterSlashInUri, r) w = .pending (t, f p r) := by
  induction h with
  | nil => exact ⟨.afterSlashInUri, _, trivial, ⟨_, _, .id⟩, fun _ _ _ => rfl⟩
  | @byte w c _ hPlain hSp ih =>
      obtain ⟨t, f, ht, ⟨cm, qm, hf⟩, hRun⟩ := ih
      obtain ⟨u, g, hStep, hu, cm', qm', hg⟩ := requestLineStep_path (fun _ => 0) ht hPlain hSp
      refine ⟨u, _, hu, ⟨_, _, hf.comp (n := w.length) hg⟩, fun mem p r => ?_⟩
      have hMem : requestLineStep mem (p + w.length) (t, f p r) c = .next (u, g (p + w.length) (f p r)) := by
        rw [← hStep]
        cases t <;> first | exact ht.elim | rfl
      rw [run_append_of_pending _ (hRun mem p r), run_cons_next _ hMem]
      rfl
  | @spaces w c n _ hPlain hSp hH ih =>
      obtain ⟨t, f, ht, ⟨cm, qm, hf⟩, hRun⟩ := ih
      obtain ⟨v, hv, hSpace⟩ := requestLineStep_path_space ht
      obtain ⟨u, g, hStep, hu, cm', qm', hg⟩ := requestLineStep_path_again (fun _ => 0) hv hPlain hSp hH
      have hMark : PathEffect (fun p r => { r with uriEnd := p }) false false :=
        ⟨fun _ _ => rfl, fun _ _ => rfl, fun _ _ => rfl⟩
      refine ⟨u, _, hu, ⟨_, _, (hf.comp (n := w.length) hMark).comp (n := w.length + (n + 1)) hg⟩,
        fun mem p r => ?_⟩
      have hMem : ∀ x r, requestLineStep mem x (v, r) c = .next (u, g x r) := by
        intro x r
        rw [← hStep]
        rcases hv with rfl | rfl <;> rfl
      have hBefore : v.BeforeVersion := by
        rcases hv with rfl | rfl <;> trivial
      rw [run_append_of_pending _ (hRun mem p r), List.replicate_succ, List.cons_append,
        run_cons_next _ (hSpace _ _ _), run_append_of_pending _ (run_spaces mem hBefore n),
        List.length_replicate, run_cons_next _ (hMem _ _), run_nil]
      simp only [show p + w.length + 1 + n = p + (w.length + (n + 1)) by omega]

/-- The run over a path behind its first slash, and when it leaves the URI marked. -/
theorem run_path_marked {w : List UInt8} (h : PathRest w) (mem : Mem) (p : Nat) (r : RequestT) :
    ∃ s r', run (requestLineStep mem) p (.afterSlashInUri, r) w = .pending (s, r') ∧ s.InPath ∧
      r'.forgetPath = r.forgetPath ∧ (r'.UriMarked ↔ (pathRequest w).UriMarked ∨ r.UriMarked) := by
  obtain ⟨s, f, hs, ⟨complex, quoted, hf⟩, hRun⟩ := run_path h
  refine ⟨s, f p r, hRun mem p r, hs, hf.frame p r, ?_⟩
  have hAlone : pathRequest w = f 0 {} := by
    rw [pathRequest, hRun]
  simp only [RequestT.UriMarked, hAlone, hf.complex_eq, hf.quoted_eq]
  cases complex <;> cases quoted <;> simp

/-- What a scan has stored behind a target and `n` spaces. -/
structure ReadsTarget (t : TargetText) (p n : Nat) (r : RequestT) (s : RequestLineState) (r' : RequestT) :
    Prop where
  state : n = 0 ∧ s.InPath ∨
    0 < n ∧ s.BeforeVersion ∧ r'.uriEnd = p + t.uriOffset + t.uri.length
  frame : r'.forgetTarget = r.forgetTarget
  uriStart : r'.uriStart = p + t.uriOffset
  marked : r'.UriMarked ↔ t.Marked ∨ r.UriMarked

theorem RequestT.uriMarked_of_forgetAuthority {r r' : RequestT}
    (h : r'.forgetAuthority = r.forgetAuthority) : r'.UriMarked ↔ r.UriMarked := by
  have hMarked := congrArg RequestT.UriMarked h
  exact Iff.of_eq hMarked

/-- The spaces behind a target with a path. -/
theorem run_path_spaces {s : RequestLineState} {r : RequestT} (hs : s.InPath) (n : Nat) :
    ∃ t r', run (requestLineStep mem) p (s, r) (List.replicate n sp) = .pending (t, r') ∧
      (n = 0 ∧ t.InPath ∨ 0 < n ∧ t.BeforeVersion ∧ r'.uriEnd = p) ∧
      r'.forgetPath = r.forgetPath ∧ r'.uriStart = r.uriStart ∧ (r'.UriMarked ↔ r.UriMarked) := by
  cases n with
  | zero => exact ⟨s, r, rfl, Or.inl ⟨rfl, hs⟩, rfl, rfl, Iff.rfl⟩
  | succ n =>
      obtain ⟨t, ht, hSpace⟩ := requestLineStep_path_space hs
      have hBefore : t.BeforeVersion := by
        rcases ht with rfl | rfl <;> trivial
      refine ⟨t, { r with uriEnd := p }, ?_, Or.inr ⟨Nat.succ_pos n, hBefore, rfl⟩, rfl, rfl, Iff.rfl⟩
      rw [List.replicate_succ, run_cons_next _ (hSpace mem p r)]
      exact run_spaces mem hBefore n

/-- A path with the spaces behind it, read from its slash on. -/
theorem run_slash_path {r : RequestT} {rest : List UInt8} (hRest : PathRest rest) (n : Nat) :
    ∃ s r', run (requestLineStep mem) (p + 1) (.afterSlashInUri, { r with uriStart := p })
        (rest ++ List.replicate n sp) = .pending (s, r') ∧
      (n = 0 ∧ s.InPath ∨ 0 < n ∧ s.BeforeVersion ∧ r'.uriEnd = p + (slash :: rest).length) ∧
      r'.forgetTarget = r.forgetTarget ∧ r'.uriStart = p ∧
      (r'.UriMarked ↔ (pathRequest rest).UriMarked ∨ r.UriMarked) := by
  obtain ⟨s, r₁, hRun, hs, hFrame, hMarked⟩ :=
    run_path_marked hRest mem (p + 1) { r with uriStart := p }
  obtain ⟨t, r₂, hSpaces, ht, hFrame', hStart, hMarked'⟩ :=
    run_path_spaces mem (p := p + 1 + rest.length) (r := r₁) hs n
  have hUriStart : r₁.uriStart = p := by
    have hField := congrArg RequestT.uriStart hFrame
    exact hField
  refine ⟨t, r₂, ?_, ?_, ?_, hStart.trans hUriStart, hMarked'.trans hMarked⟩
  · rw [run_append_of_pending _ hRun, hSpaces]
  · rw [List.length_cons, show p + (rest.length + 1) = p + 1 + rest.length by omega]
    exact ht
  · have hTarget := congrArg RequestT.forgetTarget (hFrame'.trans hFrame)
    exact hTarget

/-- The run over a target and the spaces behind it. A target without a path ends at the
first of these spaces, so that there must be one. -/
theorem run_target {r : RequestT} (t : TargetText) (n : Nat) (hSpace : ¬ t.HasPath → 0 < n) :
    ∃ s r', run (requestLineStep mem) p (.spacesBeforeUri, r) (t.bytes ++ List.replicate n sp) =
        .pending (s, r') ∧ ReadsTarget t p n r s r' := by
  cases t with
  | path authority rest hRest =>
      cases authority with
      | none =>
          obtain ⟨s, r', hRun, hs, hFrame, hStart, hMarked⟩ :=
            run_slash_path mem (p := p) (r := r) hRest n
          have hSlash : requestLineStep mem p (.spacesBeforeUri, r) slash =
              .next (.afterSlashInUri, { r with uriStart := p }) := rfl
          exact ⟨s, r', (run_cons_next _ hSlash).trans hRun, hs, hFrame, hStart, hMarked⟩
      | some a =>
          obtain ⟨s, r₁, hAuthority, hs, hFrame, -⟩ := run_authority mem (p := p) (r := r) a
          obtain ⟨r₂, hSlash, hStart, hFrame₂⟩ :=
            requestLineStep_authority_slash mem (p := p + a.bytes.length) hs r₁
          obtain ⟨u, r₃, hRun, hu, hFrame₃, hStart₃, hMarked⟩ :=
            run_slash_path mem (p := p + a.bytes.length) (r := r₂) hRest n
          have hSame : ({ r₂ with uriStart := p + a.bytes.length } : RequestT) = r₂ := by
            rw [← hStart]
          rw [hSame] at hRun
          refine ⟨u, r₃, ?_, ?_, ?_, hStart₃, ?_⟩
          · simp only [TargetText.bytes, authorityBytes, List.append_assoc, List.cons_append]
            rw [run_append_of_pending _ hAuthority, run_cons_next _ hSlash, hRun]
          · exact hu
          · have hFirst := congrArg RequestT.forgetTarget hFrame
            have hSecond := congrArg RequestT.forgetTarget hFrame₂
            exact hFrame₃.trans (hSecond.trans hFirst)
          · refine hMarked.trans (or_congr Iff.rfl ?_)
            have hOld := RequestT.uriMarked_of_forgetAuthority hFrame
            exact (RequestT.uriMarked_of_forgetAuthority hFrame₂).trans hOld
  | bare a =>
      obtain ⟨n, rfl⟩ := Nat.exists_eq_add_of_le' (hSpace nofun)
      obtain ⟨s, r₁, hAuthority, hs, hFrame, hEnd⟩ := run_authority mem (p := p) (r := r) a
      obtain ⟨r₂, hSp, hFrame₂⟩ :=
        requestLineStep_authority_space mem (p := p + a.bytes.length) hs r₁
      have hStart : r₂.uriStart = r₁.schemaEnd + 1 := by
        have hField := congrArg RequestT.uriStart hFrame₂
        exact hField
      have hUriEnd : r₂.uriEnd = r₁.schemaEnd + 2 := by
        have hField := congrArg RequestT.uriEnd hFrame₂
        exact hField
      refine ⟨.hostHttp09, r₂, ?_, Or.inr ⟨Nat.succ_pos n, trivial, ?_⟩, ?_, ?_, ?_⟩
      · simp only [TargetText.bytes]
        rw [run_append_of_pending _ hAuthority, List.replicate_succ, run_cons_next _ hSp]
        exact run_spaces mem (s := .hostHttp09) trivial n
      · rw [hUriEnd, hEnd]
        rfl
      · have hFirst := congrArg RequestT.forgetTarget hFrame
        have hSecond := congrArg RequestT.forgetTarget hFrame₂
        exact hSecond.trans hFirst
      · rw [hStart, hEnd]
        rfl
      · have hOld := RequestT.uriMarked_of_forgetAuthority hFrame
        refine (RequestT.uriMarked_of_forgetAuthority hFrame₂).trans (Iff.trans hOld ?_)
        simp [TargetText.Marked]

/-- The version and the spaces behind it. Both numbers take any number of digits. -/
theorem run_version {s : RequestLineState} {r : RequestT} (hs : s.BeforeVersion) (v : VersionText) :
    ∃ u, run (requestLineStep mem) p (s, r) v.bytes =
        .pending (u, { r with
          httpProtocol := { r.httpProtocol with data := p }
          httpMajor := v.majorValue
          httpMinor := v.minorValue }) ∧
      (u = .minorDigit ∨ u = .spacesAfterDigit) := by
  have hMark : run (requestLineStep mem) p (s, r) replyMark =
      .pending (.firstMajorDigit, { r with httpProtocol := { r.httpProtocol with data := p } }) := by
    cases s <;> first | exact hs.elim | rfl
  have hMajor : ∀ x r, requestLineStep mem x (.firstMajorDigit, r) v.major =
      .next (.majorDigit, { r with httpMajor := digitValue v.major }) := fun x r =>
    if_neg (not_or.mpr ⟨UInt8.not_lt.mpr v.major_le.1, UInt8.not_lt.mpr v.major_le.2⟩)
  have hMajors : ∀ (w : List UInt8) x r, (∀ c ∈ w, IsDigit c) →
      run (requestLineStep mem) x (.majorDigit, r) w =
        .pending (.majorDigit, { r with httpMajor := decimal r.httpMajor w }) := by
    intro w x r hDigits
    refine run_foldl (fun n => (RequestLineState.majorDigit, { r with httpMajor := n })) fun q n c hc => ?_
    have hDigit := hDigits c hc
    simp only [requestLineStep, requestLineStepWith, (digit_ne c hDigit).1, hDigit, not_true, if_false]
  have hMinor : ∀ x r, requestLineStep mem x (.firstMinorDigit, r) v.minor =
      .next (.minorDigit, { r with httpMinor := digitValue v.minor }) := fun x r =>
    if_neg (not_not.mpr v.minor_digit)
  have hMinors : ∀ (w : List UInt8) x r, (∀ c ∈ w, IsDigit c) →
      run (requestLineStep mem) x (.minorDigit, r) w =
        .pending (.minorDigit, { r with httpMinor := decimal r.httpMinor w }) := by
    intro w x r hDigits
    refine run_foldl (fun n => (RequestLineState.minorDigit, { r with httpMinor := n })) fun q n c hc => ?_
    have hDigit := hDigits c hc
    obtain ⟨-, hCr, hLf, hSp⟩ := digit_ne c hDigit
    simp only [requestLineStep, requestLineStepWith, hCr, hLf, hSp, hDigit, not_true, if_false]
  have hDot : ∀ x r, requestLineStep mem x (.majorDigit, r) dot = .next (.firstMinorDigit, r) :=
    fun _ _ => rfl
  have hAfter : ∀ n x r, ∃ u, run (requestLineStep mem) x (.minorDigit, r) (List.replicate n sp) =
      .pending (u, r) ∧ (u = .minorDigit ∨ u = .spacesAfterDigit) := by
    intro n x r
    cases n with
    | zero => exact ⟨_, rfl, Or.inl rfl⟩
    | succ n =>
        have hFirst : requestLineStep mem x (.minorDigit, r) sp = .next (.spacesAfterDigit, r) := rfl
        refine ⟨.spacesAfterDigit, ?_, Or.inr rfl⟩
        rw [List.replicate_succ, run_cons_next _ hFirst]
        refine run_const fun q c hc => ?_
        rw [List.eq_of_mem_replicate hc]
        rfl
  simp only [VersionText.bytes, VersionText.numbers, List.cons_append, List.append_assoc]
  rw [run_append_of_pending _ hMark, run_cons_next _ (hMajor _ _),
    run_append_of_pending _ (hMajors _ _ _ v.majorRest_digit), run_cons_next _ (hDot _ _),
    run_cons_next _ (hMinor _ _), run_append_of_pending _ (hMinors _ _ _ v.minorRest_digit)]
  exact hAfter _ _ _

/-- The end of a line, from a state in which both terminators may stand. -/
theorem run_lineBreak {σ : RequestLineScan} {r : RequestT} (crlf : Bool)
    (hLf : requestLineStep mem p σ lf = .halt (.done r))
    (hCr : requestLineStep mem p σ cr = .next (.almostDone, r)) :
    run (requestLineStep mem) p σ (lineBreak crlf) =
      .halted (p + (lineBreak crlf).length - 1)
        (.done { r with requestEnd := if crlf then p else r.requestEnd }) := by
  cases crlf with
  | false => exact run_cons_halt _ hLf
  | true =>
      rw [lineBreak, run_cons_next _ hCr]
      rfl

/-- What the parser has stored of a line at `p`. -/
structure ReadsRequestLine (mem : Mem) (t : RequestLineText) (p : Nat) (r q : RequestT) : Prop where
  frame : q.forgetLine = r.forgetLine
  requestStart : q.requestStart = p + t.skip.length
  methodEnd : q.methodEnd = p + t.skip.length + t.method.length - 1
  method : q.method = (methodNumber mem (p + t.skip.length)
    (p + t.skip.length + t.method.length)).getD r.method
  uriStart : q.uriStart = p + t.opening.length + t.target.uriOffset
  uriEnd : q.uriEnd = p + t.opening.length + t.target.uriOffset + t.target.uri.length
  marked : q.UriMarked ↔ t.target.Marked ∨ r.UriMarked
  protocol : q.httpProtocol.data = if t.version.isSome then p + t.front.length else r.httpProtocol.data
  major : q.httpMajor = match t.version with
    | some v => v.majorValue
    | none => r.httpMajor
  minor : q.httpMinor = match t.version with
    | some v => v.minorValue
    | none => 9
  requestEnd : q.requestEnd = if t.crlf then p + t.bytes.length - 2 else r.requestEnd

/-- What the end of a line adds to the request, with the line break at `y`. -/
structure ReadsEnding (t : RequestLineText) (x y : Nat) (r q : RequestT) : Prop where
  frame : q.forgetEnding = r.forgetEnding
  protocol : q.httpProtocol.data = if t.version.isSome then x else r.httpProtocol.data
  major : q.httpMajor = match t.version with
    | some v => v.majorValue
    | none => r.httpMajor
  minor : q.httpMinor = match t.version with
    | some v => v.minorValue
    | none => 9
  requestEnd : q.requestEnd = if t.crlf then y else r.requestEnd

/-- The run over the end of a line, behind its target. Without a version the line break
ends the URI as well. -/
theorem run_ending {t : RequestLineText} {s : RequestLineState} {r r₀ : RequestT} {a : Nat}
    (h : ReadsTarget t.target a t.space r₀ s r)
    (hHere : p = a + (t.target.bytes ++ List.replicate t.space sp).length) :
    ∃ q, run (requestLineStep mem) p (s, r) (versionBytes t.version ++ lineBreak t.crlf) =
        .halted (p + (versionBytes t.version ++ lineBreak t.crlf).length - 1) (.done q) ∧
      ReadsEnding t p (p + (versionBytes t.version).length) r q ∧
      q.uriEnd = a + t.target.uriOffset + t.target.uri.length := by
  cases hVersion : t.version with
  | none =>
      have hUri : t.target.HasPath → t.space = 0 → p = a + t.target.uriOffset + t.target.uri.length := by
        intro hPath hZero
        rw [hHere, hZero]
        cases hTarget : t.target with
        | path authority rest _ =>
            simp only [TargetText.bytes, TargetText.uriOffset, TargetText.uri, List.length_append,
              List.replicate_zero, List.append_nil]
            omega
        | bare _ =>
            rw [hTarget] at hPath
            exact hPath.elim
      obtain ⟨u, hLf, hCr, hEnd⟩ : ∃ u,
          requestLineStep mem p (s, r) lf = .halt (.done { r with uriEnd := u, httpMinor := 9 }) ∧
          requestLineStep mem p (s, r) cr =
            .next (.almostDone, { r with uriEnd := u, httpMinor := 9 }) ∧
          u = a + t.target.uriOffset + t.target.uri.length := by
        rcases h.state with ⟨hZero, hs⟩ | ⟨-, hs, hEnd⟩
        · have hPath : t.target.HasPath := by
            by_contra hNot
            exact absurd (t.space_pos (Or.inr hNot)) (by omega)
          refine ⟨p, ?_, ?_, hUri hPath hZero⟩
          · cases s <;> first | exact hs.elim | rfl
          · cases s <;> first | exact hs.elim | rfl
        · refine ⟨r.uriEnd, ?_, ?_, hEnd⟩
          · cases s <;> first | exact hs.elim | rfl
          · cases s <;> first | exact hs.elim | rfl
      refine ⟨_, run_lineBreak mem t.crlf hLf hCr, ⟨rfl, ?_, ?_, ?_, rfl⟩, hEnd⟩ <;> simp [hVersion]
  | some v =>
      have hPos : 0 < t.space := t.space_pos (Or.inl (by rw [hVersion]; rfl))
      obtain ⟨-, hs, hEnd⟩ := h.state.resolve_left fun hNot => absurd hNot.1 (by omega)
      obtain ⟨u, hRun, hu⟩ := run_version mem (p := p) (r := r) hs v
      have hStop := run_lineBreak mem (p := p + v.bytes.length)
        (σ := (u, { r with
          httpProtocol := { r.httpProtocol with data := p }
          httpMajor := v.majorValue
          httpMinor := v.minorValue })) t.crlf
        (by rcases hu with rfl | rfl <;> rfl) (by rcases hu with rfl | rfl <;> rfl)
      have hWhole := (run_append_of_pending (lineBreak t.crlf) hRun).trans hStop
      rw [show p + v.bytes.length + (lineBreak t.crlf).length - 1 =
        p + (v.bytes ++ lineBreak t.crlf).length - 1 by rw [List.length_append, Nat.add_assoc]] at hWhole
      refine ⟨_, hWhole, ⟨rfl, ?_, ?_, ?_, rfl⟩, hEnd⟩ <;> rw [hVersion]
      rfl

def RequestT.forgetMethod (r : RequestT) : RequestT :=
  { r with requestStart := 0, methodEnd := 0, method := 0 }

/-- The run up to the target. -/
theorem run_opening {r : RequestT} (t : RequestLineText) :
    ∃ q, run (requestLineStep mem) p (.start, r) t.opening = .pending (.spacesBeforeUri, q) ∧
      q.forgetMethod = r.forgetMethod ∧ q.requestStart = p + t.skip.length ∧
      q.methodEnd = p + t.skip.length + t.method.length - 1 ∧
      q.method = (methodNumber mem (p + t.skip.length)
        (p + t.skip.length + t.method.length)).getD r.method := by
  obtain ⟨a, hSkip⟩ := run_skip mem (p := p) (r := r) t.skip_break
  have hMethod := run_method mem (p := p + t.skip.length) (r := { r with requestStart := a })
    t.gap t.method_ne t.method_byte
  exact ⟨_, (run_append_of_pending _ hSkip).trans hMethod, rfl, rfl, rfl, rfl⟩

/-- The run over a whole request line, from its skipped line breaks to its line feed, on
which the parser comes to `done`. -/
theorem run_requestLine {r : RequestT} (t : RequestLineText) :
    ∃ q, run (requestLineStep mem) p (.start, r) t.bytes = .halted (p + t.bytes.length - 1) (.done q) ∧
      ReadsRequestLine mem t p r q := by
  obtain ⟨r₁, hOpening, hFrame₁, hStart, hMethodEnd, hMethod⟩ := run_opening mem (p := p) (r := r) t
  obtain ⟨s, r₂, hTarget, hReads⟩ := run_target mem (p := p + t.opening.length) (r := r₁)
    t.target t.space fun h => t.space_pos (Or.inr h)
  obtain ⟨q, hEnd, hEnding, hUriEnd⟩ := run_ending mem (t := t) hReads rfl
  have hFrame₂ := hReads.frame
  have hFrame₃ := hEnding.frame
  have hFront : p + t.opening.length + (t.target.bytes ++ List.replicate t.space sp).length =
      p + t.front.length := by
    simp only [RequestLineText.front, List.length_append]
    omega
  rw [hFront] at hEnd hEnding
  have hLength : t.bytes.length = t.front.length + (versionBytes t.version ++ lineBreak t.crlf).length :=
    List.length_append
  refine ⟨q, ?_, ?_⟩
  · have hRun := (run_append_of_pending (t.target.bytes ++ List.replicate t.space sp) hOpening).trans hTarget
    have hWhole := run_append_of_pending (versionBytes t.version ++ lineBreak t.crlf) hRun
    rw [List.length_append, ← Nat.add_assoc, hFront, hEnd] at hWhole
    rw [hLength, ← Nat.add_assoc]
    exact hWhole
  · have hSame₃ : ∀ {α : Type} (f : RequestT → α), (∀ r : RequestT, f r.forgetEnding = f r) →
        f q = f r₂ := fun f hf => by rw [← hf q, hFrame₃, hf]
    have hSame₂ : ∀ {α : Type} (f : RequestT → α), (∀ r : RequestT, f r.forgetTarget = f r) →
        f r₂ = f r₁ := fun f hf => by rw [← hf r₂, hFrame₂, hf]
    have hSame₁ : ∀ {α : Type} (f : RequestT → α), (∀ r : RequestT, f r.forgetMethod = f r) →
        f r₁ = f r := fun f hf => by rw [← hf r₁, hFrame₁, hf]
    have hFrame : q.forgetLine = r.forgetLine := by
      rw [hSame₃ RequestT.forgetLine fun _ => rfl, hSame₂ RequestT.forgetLine fun _ => rfl,
        hSame₁ RequestT.forgetLine fun _ => rfl]
    refine ⟨hFrame, ?_, ?_, ?_, ?_, hUriEnd, ?_, ?_, ?_, ?_, ?_⟩
    · rw [hSame₃ RequestT.requestStart fun _ => rfl, hSame₂ RequestT.requestStart fun _ => rfl, hStart]
    · rw [hSame₃ RequestT.methodEnd fun _ => rfl, hSame₂ RequestT.methodEnd fun _ => rfl, hMethodEnd]
    · rw [hSame₃ RequestT.method fun _ => rfl, hSame₂ RequestT.method fun _ => rfl, hMethod]
    · rw [hSame₃ RequestT.uriStart fun _ => rfl, hReads.uriStart]
    · rw [hSame₃ RequestT.UriMarked fun _ => rfl, hReads.marked, hSame₁ RequestT.UriMarked fun _ => rfl]
    · rw [hEnding.protocol, hSame₂ (fun q => q.httpProtocol.data) fun _ => rfl,
        hSame₁ (fun q => q.httpProtocol.data) fun _ => rfl]
    · rw [hEnding.major, hSame₂ RequestT.httpMajor fun _ => rfl, hSame₁ RequestT.httpMajor fun _ => rfl]
    · exact hEnding.minor
    · rw [hEnding.requestEnd, hSame₂ RequestT.requestEnd fun _ => rfl,
        hSame₁ RequestT.requestEnd fun _ => rfl, hLength, List.length_append]
      cases t.crlf with
      | false => rfl
      | true => simp only [if_true, lineBreak, List.length_cons, List.length_nil]; omega

/-- The parser on a request line at the buffer's position. -/
theorem ngxHttpParseRequestLine_text {mem : Mem} {r : RequestT} {b : LtBuffer} {rest : List UInt8}
    (t : RequestLineText) (hState : r.state = 0) (hUnread : b.unread mem = t.bytes ++ rest) :
    ∃ q, ReadsRequestLine mem t b.pos r q ∧ ngxHttpParseRequestLine mem r b =
      ((requestLineDone (b.pos + t.bytes.length - 1) q).1, (requestLineDone (b.pos + t.bytes.length - 1) q).2,
        { b with pos := b.pos + t.bytes.length }) := by
  obtain ⟨q, hRun, hReads⟩ := run_requestLine mem (p := b.pos) (r := r) t
  have hPos : 0 < t.bytes.length := by
    cases hBreak : t.crlf <;> simp [RequestLineText.bytes, lineBreak, hBreak]
  refine ⟨q, hReads, ?_⟩
  rw [ngxHttpParseRequestLine, hState, RequestLineState.ofNat?_zero]
  simp only [hUnread, run_append_of_halted rest hRun]
  rw [Nat.sub_add_cancel (by omega)]

end Leactor
