import Leactor.Basic

/-! `ngx_http_parse_request_line`. The loop over `p` is a scanning machine
whose symbols are the unread bytes; each arm of the `switch` is one arm of
`requestLineStep`. A step back over a byte (`p--`) is a second look at the
same byte in the new state. -/
namespace Leactor

open Ascii Scan

/-- The `sw_` states of `ngx_http_parse_request_line`, in the order of the enum. -/
inductive RequestLineState where
  | start
  | method
  | spacesBeforeUri
  | schema
  | schemaSlash
  | schemaSlashSlash
  | hostStart
  | host
  | hostEnd
  | hostIpLiteral
  | port
  | hostHttp09
  | afterSlashInUri
  | checkUri
  | checkUriHttp09
  | uri
  | http09
  | httpH
  | httpHT
  | httpHTT
  | httpHTTP
  | firstMajorDigit
  | majorDigit
  | firstMinorDigit
  | minorDigit
  | spacesAfterDigit
  | almostDone
  deriving DecidableEq, Repr

namespace RequestLineState

def all : List RequestLineState :=
  [start, method, spacesBeforeUri, schema, schemaSlash, schemaSlashSlash, hostStart, host, hostEnd,
   hostIpLiteral, port, hostHttp09, afterSlashInUri, checkUri, checkUriHttp09, uri, http09, httpH,
   httpHT, httpHTT, httpHTTP, firstMajorDigit, majorDigit, firstMinorDigit, minorDigit,
   spacesAfterDigit, almostDone]

def toNat (s : RequestLineState) : Nat := all.idxOf s

def ofNat? (n : Nat) : Option RequestLineState := all[n]?

@[simp] theorem ofNat?_toNat (s : RequestLineState) : ofNat? s.toNat = some s := by
  cases s <;> rfl

@[simp] theorem ofNat?_zero : ofNat? 0 = some start := rfl

end RequestLineState

/-- How the scan of a line ends: at the `done` label, or with an error code. -/
inductive LineExit where
  | done (r : RequestT)
  | fail (res : Res) (r : RequestT)

def ngxHttpGet : Nat := 0x0002
def ngxHttpHead : Nat := 0x0004
def ngxHttpPost : Nat := 0x0008
def ngxHttpPut : Nat := 0x0010
def ngxHttpDelete : Nat := 0x0020
def ngxHttpMkcol : Nat := 0x0040
def ngxHttpCopy : Nat := 0x0080
def ngxHttpMove : Nat := 0x0100
def ngxHttpOptions : Nat := 0x0200
def ngxHttpPropfind : Nat := 0x0400
def ngxHttpProppatch : Nat := 0x0800
def ngxHttpLock : Nat := 0x1000
def ngxHttpUnlock : Nat := 0x2000
def ngxHttpPatch : Nat := 0x4000
def ngxHttpTrace : Nat := 0x8000

/-- The `ngx_str*cmp` macros: the bytes at `m` are the given characters. -/
def ngxStrCmp (mem : Mem) (m : Nat) (cs : List Char) : Bool :=
  Memory.slice mem m (m + cs.length) == ofChars cs

/-- `ngx_str3Ocmp`, which skips the second character. -/
def ngxStr3Ocmp (mem : Mem) (m : Nat) (c₀ c₂ c₃ : Char) : Bool :=
  mem m == c₀.toUInt8 && mem (m + 2) == c₂.toUInt8 && mem (m + 3) == c₃.toUInt8

/-- The `switch (p - m)` of `sw_method`: the number of a known method name. -/
def methodNumber (mem : Mem) (m p : Nat) : Option Nat :=
  let length : Int := (p : Int) - (m : Int)
  if length = 3 then
    if ngxStrCmp mem m ['G', 'E', 'T'] then some ngxHttpGet
    else if ngxStrCmp mem m ['P', 'U', 'T'] then some ngxHttpPut
    else none
  else if length = 4 then
    if mem (m + 1) = upperO then
      if ngxStr3Ocmp mem m 'P' 'S' 'T' then some ngxHttpPost
      else if ngxStr3Ocmp mem m 'C' 'P' 'Y' then some ngxHttpCopy
      else if ngxStr3Ocmp mem m 'M' 'V' 'E' then some ngxHttpMove
      else if ngxStr3Ocmp mem m 'L' 'C' 'K' then some ngxHttpLock
      else none
    else if ngxStrCmp mem m ['H', 'E', 'A', 'D'] then some ngxHttpHead
    else none
  else if length = 5 then
    if ngxStrCmp mem m ['M', 'K', 'C', 'O', 'L'] then some ngxHttpMkcol
    else if ngxStrCmp mem m ['P', 'A', 'T', 'C', 'H'] then some ngxHttpPatch
    else if ngxStrCmp mem m ['T', 'R', 'A', 'C', 'E'] then some ngxHttpTrace
    else none
  else if length = 6 then
    if ngxStrCmp mem m ['D', 'E', 'L', 'E', 'T', 'E'] then some ngxHttpDelete
    else if ngxStrCmp mem m ['U', 'N', 'L', 'O', 'C', 'K'] then some ngxHttpUnlock
    else none
  else if length = 7 then
    if ngxStrCmp mem m ['O', 'P', 'T', 'I', 'O', 'N', 'S'] then some ngxHttpOptions else none
  else if length = 8 then
    if ngxStrCmp mem m ['P', 'R', 'O', 'P', 'F', 'I', 'N', 'D'] then some ngxHttpPropfind else none
  else if length = 9 then
    if ngxStrCmp mem m ['P', 'R', 'O', 'P', 'P', 'A', 'T', 'C', 'H'] then some ngxHttpProppatch
    else none
  else none

def replyMark : List UInt8 := ofChars ['H', 'T', 'T', 'P', '/']

def usual : List UInt32 :=
  [0xffffdbfe, 0x7fff37d6, 0xffffffff, 0xffffffff, 0xffffffff, 0xffffffff, 0xffffffff, 0xffffffff]

/-- `ch >> 5` on a signed `char`. -/
def usualIndex (ch : UInt8) : Int := ch.toInt8.toInt / 32

/-- `usual[ch >> 5] & (1 << (ch & 0x1f))`. A negative index reads the words
`below` that lie in front of the table. -/
def usualBit (below : Int → UInt32) (ch : UInt8) : Bool :=
  let word := if usualIndex ch < 0 then below (usualIndex ch)
    else usual.getD (usualIndex ch).toNat 0
  word &&& (1 <<< (ch &&& 0x1f).toUInt32) != 0

/-- The state of the scan: the local `state` and the request. -/
abbrev RequestLineScan := RequestLineState × RequestT

/-- The arm `sw_host_end`, which `sw_host` falls into. -/
def hostEndStep (p : Nat) (r : RequestT) (ch : UInt8) : Verdict RequestLineScan LineExit :=
  let r := { r with hostEnd := p }
  if ch = colon then .next (.port, r)
  else if ch = slash then .next (.afterSlashInUri, { r with uriStart := p })
  else if ch = sp then
    .next (.hostHttp09, { r with uriStart := r.schemaEnd + 1, uriEnd := r.schemaEnd + 2 })
  else .halt (.fail .ngxHttpParseInvalidRequest r)

/-- The arm `sw_host`, which `sw_host_start` falls into. -/
def hostStep (p : Nat) (r : RequestT) (ch : UInt8) : Verdict RequestLineScan LineExit :=
  if IsLetter ch then .next (.host, r)
  else if IsDigit ch ∨ ch = dot ∨ ch = minus then .next (.host, r)
  else hostEndStep p r ch

/-- The arm `sw_check_uri`, which `sw_check_uri_http_09` steps back to. -/
def checkUriStep (below : Int → UInt32) (p : Nat) (r : RequestT) (ch : UInt8) :
    Verdict RequestLineScan LineExit :=
  if usualBit below ch then .next (.checkUri, r)
  else if ch = slash then .next (.afterSlashInUri, { r with uriExt := 0 })
  else if ch = dot then .next (.checkUri, { r with uriExt := p + 1 })
  else if ch = sp then .next (.checkUriHttp09, { r with uriEnd := p })
  else if ch = cr then .next (.almostDone, { r with uriEnd := p, httpMinor := 9 })
  else if ch = lf then .halt (.done { r with uriEnd := p, httpMinor := 9 })
  else if ch = percent then .next (.uri, { r with quotedUri := 1 })
  else if ch = question then .next (.uri, { r with argsStart := p + 1 })
  else if ch = hash then .next (.uri, { r with complexUri := 1 })
  else if ch = plus then .next (.checkUri, { r with plusInUri := 1 })
  else if ch = nul then .halt (.fail .ngxHttpParseInvalidRequest r)
  else .next (.checkUri, r)

/-- The arm `sw_uri`, which `sw_http_09` steps back to. -/
def uriStep (below : Int → UInt32) (p : Nat) (r : RequestT) (ch : UInt8) :
    Verdict RequestLineScan LineExit :=
  if usualBit below ch then .next (.uri, r)
  else if ch = sp then .next (.http09, { r with uriEnd := p })
  else if ch = cr then .next (.almostDone, { r with uriEnd := p, httpMinor := 9 })
  else if ch = lf then .halt (.done { r with uriEnd := p, httpMinor := 9 })
  else if ch = hash then .next (.uri, { r with complexUri := 1 })
  else if ch = nul then .halt (.fail .ngxHttpParseInvalidRequest r)
  else .next (.uri, r)

def afterSlashInUriStep (below : Int → UInt32) (p : Nat) (r : RequestT) (ch : UInt8) :
    Verdict RequestLineScan LineExit :=
  if usualBit below ch then .next (.checkUri, r)
  else if ch = sp then .next (.checkUriHttp09, { r with uriEnd := p })
  else if ch = cr then .next (.almostDone, { r with uriEnd := p, httpMinor := 9 })
  else if ch = lf then .halt (.done { r with uriEnd := p, httpMinor := 9 })
  else if ch = dot then .next (.uri, { r with complexUri := 1 })
  else if ch = percent then .next (.uri, { r with quotedUri := 1 })
  else if ch = slash then .next (.uri, { r with complexUri := 1 })
  else if ch = question then .next (.uri, { r with argsStart := p + 1 })
  else if ch = hash then .next (.uri, { r with complexUri := 1 })
  else if ch = plus then .next (.afterSlashInUri, { r with plusInUri := 1 })
  else if ch = nul then .halt (.fail .ngxHttpParseInvalidRequest r)
  else .next (.checkUri, r)

def expect (c : UInt8) (s : RequestLineState) (r : RequestT) (ch : UInt8) :
    Verdict RequestLineScan LineExit :=
  if ch = c then .next (s, r) else .halt (.fail .ngxHttpParseInvalidRequest r)

/-- One turn of the loop of `ngx_http_parse_request_line`. -/
def requestLineStepWith (below : Int → UInt32) (mem : Mem) :
    Machine UInt8 RequestLineScan LineExit := fun p σ ch =>
  let r := σ.2
  match σ.1 with
  | .start =>
      let r := { r with requestStart := p }
      if ch = cr ∨ ch = lf then .next (.start, r)
      else if ¬ IsUpper ch ∧ ch ≠ underscore then .halt (.fail .ngxHttpParseInvalidMethod r)
      else .next (.method, r)
  | .method =>
      if ch = sp then
        let r := { r with methodEnd := p - 1 }
        .next (.spacesBeforeUri, { r with method := (methodNumber mem r.requestStart p).getD r.method })
      else if ¬ IsUpper ch ∧ ch ≠ underscore then .halt (.fail .ngxHttpParseInvalidMethod r)
      else .next (.method, r)
  | .spacesBeforeUri =>
      if ch = slash then .next (.afterSlashInUri, { r with uriStart := p })
      else if IsLetter ch then .next (.schema, { r with schemaStart := p })
      else if ch = sp then .next (.spacesBeforeUri, r)
      else .halt (.fail .ngxHttpParseInvalidRequest r)
  | .schema =>
      if IsLetter ch then .next (.schema, r)
      else if ch = colon then .next (.schemaSlash, { r with schemaEnd := p })
      else .halt (.fail .ngxHttpParseInvalidRequest r)
  | .schemaSlash => expect slash .schemaSlashSlash r ch
  | .schemaSlashSlash => expect slash .hostStart r ch
  | .hostStart =>
      let r := { r with hostStart := p }
      if ch = lbracket then .next (.hostIpLiteral, r) else hostStep p r ch
  | .host => hostStep p r ch
  | .hostEnd => hostEndStep p r ch
  | .hostIpLiteral =>
      if IsDigit ch ∨ IsLetter ch then .next (.hostIpLiteral, r)
      else if ch = colon then .next (.hostIpLiteral, r)
      else if ch = rbracket then .next (.hostEnd, r)
      else if ch = minus ∨ ch = dot ∨ ch = underscore ∨ ch = tilde then .next (.hostIpLiteral, r)
      else if ch = bang ∨ ch = dollar ∨ ch = amp ∨ ch = quote ∨ ch = lparen ∨ ch = rparen ∨
          ch = star ∨ ch = plus ∨ ch = comma ∨ ch = semicolon ∨ ch = equal then
        .next (.hostIpLiteral, r)
      else .halt (.fail .ngxHttpParseInvalidRequest r)
  | .port =>
      if IsDigit ch then .next (.port, r)
      else if ch = slash then .next (.afterSlashInUri, { r with portEnd := p, uriStart := p })
      else if ch = sp then
        .next (.hostHttp09,
          { r with portEnd := p, uriStart := r.schemaEnd + 1, uriEnd := r.schemaEnd + 2 })
      else .halt (.fail .ngxHttpParseInvalidRequest r)
  | .hostHttp09 =>
      if ch = sp then .next (.hostHttp09, r)
      else if ch = cr then .next (.almostDone, { r with httpMinor := 9 })
      else if ch = lf then .halt (.done { r with httpMinor := 9 })
      else if ch = upperH then
        .next (.httpH, { r with httpProtocol := { r.httpProtocol with data := p } })
      else .halt (.fail .ngxHttpParseInvalidRequest r)
  | .afterSlashInUri => afterSlashInUriStep below p r ch
  | .checkUri => checkUriStep below p r ch
  | .checkUriHttp09 =>
      if ch = sp then .next (.checkUriHttp09, r)
      else if ch = cr then .next (.almostDone, { r with httpMinor := 9 })
      else if ch = lf then .halt (.done { r with httpMinor := 9 })
      else if ch = upperH then
        .next (.httpH, { r with httpProtocol := { r.httpProtocol with data := p } })
      -- `p--` and the next turn of the loop
      else checkUriStep below p { r with spaceInUri := 1 } ch
  | .uri => uriStep below p r ch
  | .http09 =>
      if ch = sp then .next (.http09, r)
      else if ch = cr then .next (.almostDone, { r with httpMinor := 9 })
      else if ch = lf then .halt (.done { r with httpMinor := 9 })
      else if ch = upperH then
        .next (.httpH, { r with httpProtocol := { r.httpProtocol with data := p } })
      -- `p--` and the next turn of the loop
      else uriStep below p { r with spaceInUri := 1 } ch
  | .httpH => expect upperT .httpHT r ch
  | .httpHT => expect upperT .httpHTT r ch
  | .httpHTT => expect upperP .httpHTTP r ch
  | .httpHTTP => expect slash .firstMajorDigit r ch
  | .firstMajorDigit =>
      if ch < one ∨ nine < ch then .halt (.fail .ngxHttpParseInvalidRequest r)
      else .next (.majorDigit, { r with httpMajor := digitValue ch })
  | .majorDigit =>
      if ch = dot then .next (.firstMinorDigit, r)
      else if ¬ IsDigit ch then .halt (.fail .ngxHttpParseInvalidRequest r)
      else .next (.majorDigit, { r with httpMajor := wrap32 (r.httpMajor * 10 + digitValue ch) })
  | .firstMinorDigit =>
      if ¬ IsDigit ch then .halt (.fail .ngxHttpParseInvalidRequest r)
      else .next (.minorDigit, { r with httpMinor := digitValue ch })
  | .minorDigit =>
      if ch = cr then .next (.almostDone, r)
      else if ch = lf then .halt (.done r)
      else if ch = sp then .next (.spacesAfterDigit, r)
      else if ¬ IsDigit ch then .halt (.fail .ngxHttpParseInvalidRequest r)
      else .next (.minorDigit, { r with httpMinor := wrap32 (r.httpMinor * 10 + digitValue ch) })
  | .spacesAfterDigit =>
      if ch = sp then .next (.spacesAfterDigit, r)
      else if ch = cr then .next (.almostDone, r)
      else if ch = lf then .halt (.done r)
      else .halt (.fail .ngxHttpParseInvalidRequest r)
  | .almostDone =>
      let r := { r with requestEnd := p - 1 }
      if ch = lf then .halt (.done r) else .halt (.fail .ngxHttpParseInvalidRequest r)

/-- The loop with zeros in front of `usual[]`. -/
def requestLineStep : Mem → Machine UInt8 RequestLineScan LineExit :=
  requestLineStepWith fun _ => 0

def requestLineDone (p : Nat) (r : RequestT) : Res × RequestT :=
  let r := { r with requestEnd := if r.requestEnd = 0 then p else r.requestEnd }
  let r := { r with httpVersion := wrap32 (r.httpMajor * 1000 + r.httpMinor), state := 0 }
  if r.httpVersion = 9 ∧ r.method ≠ ngxHttpGet then (.ngxHttpParseInvalid09Method, r) else (.lok, r)

def ngxHttpParseRequestLine (mem : Mem) (r : RequestT) (b : LtBuffer) : Res × RequestT × LtBuffer :=
  match RequestLineState.ofNat? r.state with
  | none => (.lagain, r, { b with pos := max b.pos b.last })
  | some s =>
      match run (requestLineStep mem) b.pos (s, r) (b.unread mem) with
      | .pending (s', r') => (.lagain, { r' with state := s'.toNat }, { b with pos := max b.pos b.last })
      | .halted _ (.fail res r') => (res, r', b)
      | .halted p (.done r') =>
          let (res, r'') := requestLineDone p r'
          (res, r'', { b with pos := p + 1 })

/-- The lookup in `usual[]` decides nothing for the bytes that index it
negatively, so the words in front of the table never matter. -/
theorem requestLineStepWith_eq (below : Int → UInt32) : requestLineStepWith below = requestLineStep := by
  have hTable : ∀ ch : UInt8, 0 ≤ usualIndex ch → usualBit below ch = usualBit (fun _ => 0) ch := by
    intro ch h
    simp [usualBit, not_lt.mpr h]
  have hHigh : ∀ ch : UInt8, usualIndex ch < 0 → ch ≠ sp ∧ ch ≠ cr ∧ ch ≠ lf ∧ ch ≠ dot ∧
      ch ≠ percent ∧ ch ≠ slash ∧ ch ≠ question ∧ ch ≠ hash ∧ ch ≠ plus ∧ ch ≠ nul := by
    apply forall_byte
    decide +kernel
  have hCheck : checkUriStep below = checkUriStep fun _ => 0 := by
    funext p r ch
    by_cases h : usualIndex ch < 0
    · obtain ⟨h1, h2, h3, h4, h5, h6, h7, h8, h9, h10⟩ := hHigh ch h
      simp [checkUriStep, h1, h2, h3, h4, h5, h6, h7, h8, h9, h10]
    · simp only [checkUriStep, hTable ch (not_lt.mp h)]
  have hUri : uriStep below = uriStep fun _ => 0 := by
    funext p r ch
    by_cases h : usualIndex ch < 0
    · obtain ⟨h1, h2, h3, -, -, -, -, h8, -, h10⟩ := hHigh ch h
      simp [uriStep, h1, h2, h3, h8, h10]
    · simp only [uriStep, hTable ch (not_lt.mp h)]
  have hSlash : afterSlashInUriStep below = afterSlashInUriStep fun _ => 0 := by
    funext p r ch
    by_cases h : usualIndex ch < 0
    · obtain ⟨h1, h2, h3, h4, h5, h6, h7, h8, h9, h10⟩ := hHigh ch h
      simp [afterSlashInUriStep, h1, h2, h3, h4, h5, h6, h7, h8, h9, h10]
    · simp only [afterSlashInUriStep, hTable ch (not_lt.mp h)]
  funext mem p σ ch
  simp only [requestLineStep, requestLineStepWith, hCheck, hUri, hSlash]

end Leactor
