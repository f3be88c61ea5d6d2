import Leactor.Parse.RequestSpec

/-! The grammar of the request lines that `ngx_http_parse_request_line` finishes,
and where its pointers cut them. -/
namespace Leactor

open Ascii Scan Memory

/-- In a path no space is the last byte, and none stands in front of an `H`. Such a
space is the end of the URI. -/
theorem pathRest_iff {w : List UInt8} :
    PathRest w ↔ (∀ c ∈ w, IsPlain c) ∧ w.IsChain (fun c d => c = sp → d ≠ upperH) ∧ w.getLast? ≠ some sp := by
  constructor
  · intro h
    induction h with
    | nil => exact ⟨List.forall_mem_nil _, .nil, nofun⟩
    | @byte w c hRest hPlain hSp ih =>
        obtain ⟨hAll, hChain, hLast⟩ := ih
        refine ⟨List.forall_mem_append.mpr ⟨hAll, List.forall_mem_singleton.mpr hPlain⟩, ?_, by simpa using hSp⟩
        refine List.isChain_append.mpr ⟨hChain, .singleton c, ?_⟩
        rintro x hx d hd rfl
        exact absurd hx hLast
    | @spaces w c n hRest hPlain hSp hH ih =>
        obtain ⟨hAll, hChain, hLast⟩ := ih
        have hSpaces : (List.replicate (n + 1) sp ++ [c]).IsChain (fun c d => c = sp → d ≠ upperH) := by
          refine List.isChain_append.mpr ⟨List.isChain_replicate_of_rel _ fun _ => by decide, .singleton c, ?_⟩
          rintro x - d hd -
          obtain rfl : d = c := by simpa using hd.symm
          exact hH
        refine ⟨?_, List.isChain_append.mpr ⟨hChain, hSpaces, ?_⟩, by simpa using hSp⟩
        · simp only [List.forall_mem_append, List.forall_mem_singleton]
          refine ⟨hAll, fun d hd => ?_, hPlain⟩
          rw [List.eq_of_mem_replicate hd]
          decide
        · rintro x hx d - rfl
          exact absurd hx hLast
  · rintro ⟨hAll, hChain, hLast⟩
    induction hn : w.length using Nat.strongRecOn generalizing w with
    | ind k ih =>
        rcases List.eq_nil_or_concat w with rfl | ⟨v, c, rfl⟩
        · exact .nil
        · rw [List.concat_eq_append] at *
          obtain ⟨u, n, rfl, hu⟩ := exists_trailing sp v
          rw [List.forall_mem_append, List.forall_mem_append, List.forall_mem_singleton] at hAll
          rw [List.isChain_append, List.isChain_append] at hChain
          simp only [List.length_append, List.length_singleton] at hn
          have hRest := ih u.length (by omega) hAll.1.1 hChain.1.1 hu rfl
          have hSp : c ≠ sp := by simpa using hLast
          cases n with
          | zero =>
              rw [List.replicate_zero, List.append_nil]
              exact .byte hRest hAll.2 hSp
          | succ n =>
              rw [List.append_assoc]
              exact .spaces n hRest hAll.2 hSp (hChain.2.2 sp (by simp [List.replicate_succ']) c (by simp) rfl)

/-- The parser comes to its label `done`. -/
def ReachesDone (mem : Mem) (r : RequestT) (b : LtBuffer) : Prop := (ngxHttpParseRequestLine mem r b).1.FromDone

/-- How the pointers of `r'` cut the line `t` at the position of `b`. -/
structure CutsLine (mem : Mem) (t : RequestLineText) (b : LtBuffer) (r' : RequestT) (b' : LtBuffer) : Prop where
  buf : b' = { b with pos := b.pos + t.bytes.length }
  state : r'.state = 0
  method : r'.requestStart = b.pos + t.skip.length ∧ slice mem r'.requestStart (r'.methodEnd + 1) = t.method
  uri : r'.uriStart = b.pos + t.opening.length + t.target.uriOffset ∧ slice mem r'.uriStart r'.uriEnd = t.target.uri
  protocol : t.version.isSome → r'.httpProtocol.data = b.pos + t.front.length ∧ mem r'.httpProtocol.data = upperH
  requestEnd : r'.requestEnd = b.pos + t.front.length + (versionBytes t.version).length

/-- Where the URI stands in its target. -/
theorem TargetText.slice_uri {mem : Mem} {a e : Nat} {rest : List UInt8} (t : TargetText)
    (h : slice mem a e = t.bytes ++ rest) :
    slice mem (a + t.uriOffset) (a + t.uriOffset + t.uri.length) = t.uri := by
  have hParts : ∀ before after, t.bytes = before ++ (t.uri ++ after) → before.length = t.uriOffset →
      slice mem (a + t.uriOffset) (a + t.uriOffset + t.uri.length) = t.uri := by
    intro before after hBytes hLength
    rw [hBytes, List.append_assoc, List.append_assoc] at h
    have hUri := (slice_eq_append h).2
    rw [hLength] at hUri
    exact (slice_eq_append hUri).1
  cases t with
  | path authority rest hRest => exact hParts (authorityBytes authority) [] (by simp [bytes, uri]) rfl
  | bare authority =>
      exact hParts (authority.schema ++ [colon]) (slash :: (authority.host ++ portBytes authority.port))
        (by simp [bytes, uri, AuthorityText.bytes]) (by simp [uriOffset])

/-- The pointers that the parser sets on the text of a request line. The parser stops at
its line feed, whatever stands behind it. -/
theorem cutsLine_of_text {mem : Mem} {b : LtBuffer} {rest : List UInt8} (t : RequestLineText)
    (hUnread : b.unread mem = t.bytes ++ rest) :
    ReachesDone mem {} b ∧
      CutsLine mem t b (ngxHttpParseRequestLine mem {} b).2.1 (ngxHttpParseRequestLine mem {} b).2.2 := by
  obtain ⟨q, hReads, hParse⟩ := ngxHttpParseRequestLine_text (r := {}) t rfl hUnread
  obtain ⟨hOpening, hMethodPos, hFront, hBytes⟩ := t.length_bytes
  have hBreak := lineBreak_length t.crlf
  have hSlice : slice mem b.pos b.last = t.skip ++ (t.method ++ (List.replicate (t.gap + 1) sp ++
      (t.target.bytes ++ (List.replicate t.space sp ++
        (versionBytes t.version ++ (lineBreak t.crlf ++ rest)))))) := by
    have hParts := hUnread
    simp only [RequestLineText.bytes, RequestLineText.front, RequestLineText.opening,
      List.append_assoc] at hParts
    exact hParts
  have hMethod := (slice_eq_append hSlice).2
  have hGap := (slice_eq_append hMethod).2
  have hTarget := (slice_eq_append hGap).2
  rw [List.length_replicate, show b.pos + t.skip.length + t.method.length + (t.gap + 1) =
    b.pos + t.opening.length by omega] at hTarget
  rw [ReachesDone, hParse]
  refine ⟨requestLineDone_fromDone _ _, ?_⟩
  rw [requestLineDone_snd]
  refine ⟨rfl, rfl, ⟨hReads.requestStart, ?_⟩, ⟨hReads.uriStart, ?_⟩, fun hVersion => ?_, ?_⟩
  · have hEnd : q.methodEnd + 1 = q.requestStart + t.method.length := by
      rw [hReads.methodEnd, hReads.requestStart]
      omega
    simp only [hEnd]
    rw [hReads.requestStart]
    exact (slice_eq_append hMethod).1
  · simp only [hReads.uriStart, hReads.uriEnd]
    exact t.target.slice_uri hTarget
  · have hData := hReads.protocol
    rw [if_pos hVersion] at hData
    refine ⟨hData, ?_⟩
    simp only [hData]
    obtain ⟨v, hv⟩ := Option.isSome_iff_exists.mp hVersion
    have hSpaces := (slice_eq_append hTarget).2
    have hMark := (slice_eq_append hSpaces).2
    rw [List.length_replicate, show b.pos + t.opening.length + t.target.bytes.length + t.space =
      b.pos + t.front.length by omega, hv] at hMark
    exact (slice_eq_cons hMark).2.1
  · -- a zeroed request has no end yet, so that without a `\r` the label `done` sets it
    have hEnd := hReads.requestEnd
    cases hCrlf : t.crlf with
    | true =>
        rw [hCrlf, if_pos rfl] at hEnd hBreak
        rw [hCrlf] at hBytes
        simp only [hEnd]
        rw [if_neg (by omega)]
        omega
    | false =>
        rw [hCrlf, if_neg Bool.false_ne_true] at hEnd hBreak
        rw [hCrlf] at hBytes
        simp only [hEnd, if_true]
        omega

/-- From a zeroed request the parser comes to `done` exactly on the texts of request
lines, and its pointers cut such a line into its parts. The paths in these texts have no
run of spaces in front of an `H` or at their end; the last part says so without the
grammar. -/
theorem reachesDone_iff (mem : Mem) (b : LtBuffer) :
    (ReachesDone mem {} b ↔ ∃ t rest, b.unread mem = RequestLineText.bytes t ++ rest) ∧
    (∀ t rest, b.unread mem = RequestLineText.bytes t ++ rest →
      CutsLine mem t b (ngxHttpParseRequestLine mem {} b).2.1 (ngxHttpParseRequestLine mem {} b).2.2) ∧
    ∀ w, PathRest w ↔
      (∀ c ∈ w, IsPlain c) ∧ w.IsChain (fun c d => c = sp → d ≠ upperH) ∧ w.getLast? ≠ some sp := by
  refine ⟨⟨fun hDone => ?_, fun ⟨t, rest, hUnread⟩ => (cutsLine_of_text t hUnread).1⟩,
    fun t rest hUnread => (cutsLine_of_text t hUnread).2, fun w => pathRest_iff⟩
  have hParse : ngxHttpParseRequestLine mem {} b = (_, _, _) := rfl
  obtain ⟨s, x, q, hs, hRun, -, -⟩ := exists_run_of_done hParse hDone
  obtain rfl : RequestLineState.start = s := Option.some.inj hs
  exact exists_requestLineText_of_run hRun

end Leactor
