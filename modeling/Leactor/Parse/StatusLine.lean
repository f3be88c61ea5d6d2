import Leactor.Parse.HeaderLine

/-! `ngx_http_parse_status_line`. -/
namespace Leactor

open Ascii Scan

/-- The `sw_` states of `ngx_http_parse_status_line`, in the order of the enum. -/
inductive StatusLineState where
  | start
  | h
  | hT
  | hTT
  | hTTP
  | firstMajorDigit
  | majorDigit
  | firstMinorDigit
  | minorDigit
  | status
  | spaceAfterStatus
  | statusText
  | almostDone
  deriving DecidableEq, Repr

namespace StatusLineState

def all : List StatusLineState :=
  [start, h, hT, hTT, hTTP, firstMajorDigit, majorDigit, firstMinorDigit, minorDigit, status,
   spaceAfterStatus, statusText, almostDone]

def toNat (s : StatusLineState) : Nat := all.idxOf s

def ofNat? (n : Nat) : Option StatusLineState := all[n]?

@[simp] theorem ofNat?_toNat (s : StatusLineState) : ofNat? s.toNat = some s := by
  cases s <;> rfl

@[simp] theorem ofNat?_zero : ofNat? 0 = some start := rfl

end StatusLineState

/-- The local `state`, the request and `*status`. -/
structure StatusLineScan where
  state : StatusLineState
  req : RequestT
  status : HttpStatus

inductive StatusExit where
  | done (r : RequestT) (status : HttpStatus)
  | error (r : RequestT) (status : HttpStatus)

def expectStatus (c : UInt8) (s : StatusLineState) (σ : StatusLineScan) (ch : UInt8) :
    Verdict StatusLineScan StatusExit :=
  if ch = c then .next { σ with state := s } else .halt (.error σ.req σ.status)

/-- One turn of the loop of `ngx_http_parse_status_line`. -/
def statusLineStep : Machine UInt8 StatusLineScan StatusExit := fun p σ ch =>
  let r := σ.req
  let status := σ.status
  match σ.state with
  | .start =>
      if ch = upperH then
        .next { σ with
          state := .h
          req := { r with requestStart := p, httpProtocol := { r.httpProtocol with data := p } } }
      else .halt (.error r status)
  | .h => expectStatus upperT .hT σ ch
  | .hT => expectStatus upperT .hTT σ ch
  | .hTT => expectStatus upperP .hTTP σ ch
  | .hTTP => expectStatus slash .firstMajorDigit σ ch
  | .firstMajorDigit =>
      if ch < one ∨ nine < ch then .halt (.error r status)
      else .next { σ with state := .majorDigit, req := { r with httpMajor := digitValue ch } }
  | .majorDigit =>
      if ch = dot then .next { σ with state := .firstMinorDigit }
      else if ¬ IsDigit ch then .halt (.error r status)
      else .next { σ with req := { r with httpMajor := wrap32 (r.httpMajor * 10 + digitValue ch) } }
  | .firstMinorDigit =>
      if ¬ IsDigit ch then .halt (.error r status)
      else .next { σ with state := .minorDigit, req := { r with httpMinor := digitValue ch } }
  | .minorDigit =>
      if ch = sp then .next { σ with state := .status, req := { r with httpProtocolEnd := p - 1 } }
      else if ¬ IsDigit ch then .halt (.error r status)
      else .next { σ with req := { r with httpMinor := wrap32 (r.httpMinor * 10 + digitValue ch) } }
  | .status =>
      if ch = sp then .next σ
      else if ¬ IsDigit ch then .halt (.error r status)
      else
        let status := { status with
          code := wrap32 (status.code * 10 + digitValue ch), count := wrap32 (status.count + 1) }
        if status.count = 3 then
          .next { σ with state := .spaceAfterStatus, status := { status with start := p - 2 } }
        else .next { σ with status := status }
  | .spaceAfterStatus =>
      if ch = sp ∨ ch = dot then .next { σ with state := .statusText }
      else if ch = cr then .next { σ with state := .almostDone }
      else if ch = lf then .halt (.done r status)
      else .halt (.error r status)
  | .statusText =>
      if ch = cr then .next { σ with state := .almostDone }
      else if ch = lf then .halt (.done r status)
      else .next σ
  | .almostDone =>
      let status := { status with end_ := p - 1 }
      if ch = lf then .halt (.done r status) else .halt (.error r status)

def ngxHttpParseStatusLine (mem : Mem) (r : RequestT) (b : LtBuffer) (status : HttpStatus) :
    Res × RequestT × LtBuffer × HttpStatus :=
  match StatusLineState.ofNat? r.state with
  | none => (.lagain, r, { b with pos := max b.pos b.last }, status)
  | some s =>
      match run statusLineStep b.pos ⟨s, r, status⟩ (b.unread mem) with
      | .pending σ =>
          (.lagain, { σ.req with state := σ.state.toNat }, { b with pos := max b.pos b.last }, σ.status)
      | .halted _ (.error r' status') => (.lerror, r', b, status')
      | .halted p (.done r' status') =>
          (.lok, { r' with state := 0 }, { b with pos := p + 1 },
            { status' with
              end_ := if status'.end_ = 0 then p else status'.end_
              httpVersion := wrap32 (r'.httpMajor * 1000 + r'.httpMinor) })

end Leactor
