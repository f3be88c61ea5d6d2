import Leactor.Parse.RequestLine

/-! `ngx_http_parse_header_line`. The locals `hash` and `i` are part of the
scan's state; they go back into the request at `LAGAIN` and at `done` only. -/
namespace Leactor

open Ascii Scan

/-- The `sw_` states of `ngx_http_parse_header_line`, in the order of the enum. -/
inductive HeaderLineState where
  | start
  | name
  | spaceBeforeValue
  | value
  | spaceAfterValue
  | ignoreLine
  | almostDone
  | headerAlmostDone
  deriving DecidableEq, Repr

namespace HeaderLineState

def all : List HeaderLineState :=
  [start, name, spaceBeforeValue, value, spaceAfterValue, ignoreLine, almostDone, headerAlmostDone]

def toNat (s : HeaderLineState) : Nat := all.idxOf s

def ofNat? (n : Nat) : Option HeaderLineState := all[n]?

@[simp] theorem ofNat?_toNat (s : HeaderLineState) : ofNat? s.toNat = some s := by
  cases s <;> rfl

@[simp] theorem ofNat?_zero : ofNat? 0 = some start := rfl

end HeaderLineState

/-- The table `lowcase[]` as its string literal spells it, row by row. -/
def lowcaseTable : List UInt8 :=
  List.replicate 32 0 ++
    (List.replicate 13 0 ++ [minus] ++ List.replicate 2 0 ++
      ofChars ['0', '1', '2', '3', '4', '5', '6', '7', '8', '9'] ++ List.replicate 6 0) ++
    (0 :: ofChars ['a', 'b', 'c', 'd', 'e', 'f', 'g', 'h', 'i', 'j', 'k', 'l', 'm', 'n', 'o', 'p',
      'q', 'r', 's', 't', 'u', 'v', 'w', 'x', 'y', 'z'] ++ List.replicate 5 0) ++
    (0 :: ofChars ['a', 'b', 'c', 'd', 'e', 'f', 'g', 'h', 'i', 'j', 'k', 'l', 'm', 'n', 'o', 'p',
      'q', 'r', 's', 't', 'u', 'v', 'w', 'x', 'y', 'z'] ++ List.replicate 5 0) ++
    List.replicate 128 0

def lowcase (ch : UInt8) : UInt8 := lowcaseTable.getD ch.toNat 0

/-- `ngx_hash(key, c)`. The `int` wraps like the 32-bit word. -/
def ngxHash (key : UInt32) (c : UInt8) : UInt32 := key * 31 + c.toUInt32

structure HeaderLineScan where
  state : HeaderLineState
  req : RequestT
  hash : UInt32
  i : Int

inductive HeaderExit where
  | done (σ : HeaderLineScan)
  | headerDone (r : RequestT)
  | invalid (r : RequestT)

def RequestT.setLowcase (r : RequestT) (i : Int) (c : UInt8) : RequestT :=
  { r with lowcaseHeader := fun j => if j = i then c else r.lowcaseHeader j }

/-- One turn of the loop of `ngx_http_parse_header_line`. -/
def headerLineStep (mem : Mem) (allowUnderscores : Bool) :
    Machine UInt8 HeaderLineScan HeaderExit := fun p σ ch =>
  let r := σ.req
  match σ.state with
  | .start =>
      let r := { r with headerNameStart := p, invalidHeader := 0 }
      if ch = cr then .next { σ with state := .headerAlmostDone, req := { r with headerEnd := p } }
      else if ch = lf then .halt (.headerDone { r with headerEnd := p })
      else if lowcase ch ≠ 0 then
        .next { state := .name, req := r.setLowcase 0 (lowcase ch), hash := ngxHash 0 (lowcase ch),
                i := 1 }
      else if ch = underscore then
        if allowUnderscores then
          .next { state := .name, req := r.setLowcase 0 ch, hash := ngxHash 0 ch, i := 1 }
        else .next { σ with state := .name, req := { r with invalidHeader := 1 } }
      else if ch = nul then .halt (.invalid r)
      else .next { σ with state := .name, req := { r with invalidHeader := 1 } }
  | .name =>
      if lowcase ch ≠ 0 then
        .next { state := .name, req := r.setLowcase σ.i (lowcase ch),
                hash := ngxHash σ.hash (lowcase ch), i := (σ.i + 1) % 32 }
      else if ch = underscore then
        if allowUnderscores then
          .next { state := .name, req := r.setLowcase σ.i ch, hash := ngxHash σ.hash ch,
                  i := (σ.i + 1) % 32 }
        else .next { σ with req := { r with invalidHeader := 1 } }
      else if ch = colon then
        .next { σ with state := .spaceBeforeValue, req := { r with headerNameEnd := p } }
      else if ch = cr then
        .next { σ with state := .almostDone,
                       req := { r with headerNameEnd := p, headerStart := p, headerEnd := p } }
      else if ch = lf then
        .halt (.done { σ with req := { r with headerNameEnd := p, headerStart := p, headerEnd := p } })
      else if ch = slash ∧ r.upstream ≠ 0 ∧ (p : Int) - (r.headerNameStart : Int) = 4 ∧
          ngxStrCmp mem r.headerNameStart ['H', 'T', 'T', 'P'] then
        .next { σ with state := .ignoreLine }
      else if ch = nul then .halt (.invalid r)
      else .next { σ with req := { r with invalidHeader := 1 } }
  | .spaceBeforeValue =>
      if ch = sp then .next σ
      else if ch = cr then
        .next { σ with state := .almostDone, req := { r with headerStart := p, headerEnd := p } }
      else if ch = lf then .halt (.done { σ with req := { r with headerStart := p, headerEnd := p } })
      else if ch = nul then .halt (.invalid r)
      else .next { σ with state := .value, req := { r with headerStart := p } }
  | .value =>
      if ch = sp then .next { σ with state := .spaceAfterValue, req := { r with headerEnd := p } }
      else if ch = cr then .next { σ with state := .almostDone, req := { r with headerEnd := p } }
      else if ch = lf then .halt (.done { σ with req := { r with headerEnd := p } })
      else if ch = nul then .halt (.invalid r)
      else .next σ
  | .spaceAfterValue =>
      if ch = sp then .next σ
      else if ch = cr then .next { σ with state := .almostDone }
      else if ch = lf then .halt (.done σ)
      else if ch = nul then .halt (.invalid r)
      else .next { σ with state := .value }
  | .ignoreLine => if ch = lf then .next { σ with state := .start } else .next σ
  | .almostDone =>
      if ch = lf then .halt (.done σ) else if ch = cr then .next σ else .halt (.invalid r)
  | .headerAlmostDone => if ch = lf then .halt (.headerDone r) else .halt (.invalid r)

def ngxHttpParseHeaderLine (mem : Mem) (r : RequestT) (b : LtBuffer) (allowUnderscores : Bool) :
    Res × RequestT × LtBuffer :=
  match HeaderLineState.ofNat? r.state with
  | none => (.lagain, r, { b with pos := max b.pos b.last })
  | some s =>
      match run (headerLineStep mem allowUnderscores) b.pos ⟨s, r, r.headerHash, r.lowcaseIndex⟩
          (b.unread mem) with
      | .pending σ =>
          (.lagain, { σ.req with state := σ.state.toNat, headerHash := σ.hash, lowcaseIndex := σ.i },
            { b with pos := max b.pos b.last })
      | .halted _ (.invalid r') => (.ngxHttpParseInvalidHeader, r', b)
      | .halted p (.done σ) =>
          (.lok,
            { σ.req with
              state := 0, headerHash := σ.hash, lowcaseIndex := σ.i,
              headerLength := wrap32 (ptrDiff σ.req.headerEnd σ.req.headerNameStart + 2) },
            { b with pos := p + 1 })
      | .halted p (.headerDone r') =>
          (.ngxHttpParseHeaderDone, { r' with state := 0 }, { b with pos := p + 1 })

/-- The bytes that may stand in a valid header name: `[A-Za-z0-9-]` by the
table, and the underscore by its own branch. -/
def IsNameByte (ch : UInt8) : Prop := lowcase ch ≠ 0 ∨ ch = underscore

instance : DecidablePred IsNameByte := fun _ => inferInstanceAs (Decidable (_ ∨ _))

/-- `tolower` in the C locale. -/
def tolower (ch : UInt8) : UInt8 := if IsUpper ch then ch ||| 0x20 else ch

/-- The table agrees with its reading as character classes. -/
theorem lowcase_ne_zero_iff : ∀ ch : UInt8,
    lowcase ch ≠ 0 ↔ IsDigit ch ∨ IsLetter ch ∨ ch = minus := by
  apply forall_byte
  decide +kernel

/-- For a name byte the table, completed by the underscore, is `tolower`. -/
theorem lowcase_eq_tolower : ∀ ch : UInt8, lowcase ch ≠ 0 → lowcase ch = tolower ch := by
  apply forall_byte
  decide +kernel

theorem IsNameByte.plain : ∀ {ch : UInt8}, IsNameByte ch → IsPlain ch := by
  intro ch
  revert ch
  apply forall_byte
  decide +kernel

theorem IsNameByte.ne : ∀ {ch : UInt8}, IsNameByte ch → ch ≠ colon ∧ ch ≠ slash ∧ ch ≠ sp := by
  intro ch
  revert ch
  apply forall_byte
  decide +kernel

end Leactor
