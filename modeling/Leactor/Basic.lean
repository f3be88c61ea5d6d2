import Leactor.Library.Scanner

/-! The data of http.h and event_lea.h that the parsers and the chain builders
work on. Pointers are natural addresses with 0 for NULL, `char` arrays are a
byte memory, and `int` is an integer reduced to 32 bits where it can overflow. -/
namespace Leactor

/-- Memory as the parsers see it. Addresses are natural numbers. -/
abbrev Mem := Nat → UInt8

/-- An `int` result, reduced to 32-bit two's complement. -/
def wrap32 (x : Int) : Int := x.bmod (2 ^ 32)

/-- An `int` or `ssize_t` converted to `size_t`. -/
def toSize (x : Int) : Nat := (x % 2 ^ 64).toNat

/-- The pointer difference `p - q` stored in an `int`. -/
def ptrDiff (p q : Nat) : Int := wrap32 ((p : Int) - (q : Int))

namespace Ascii

abbrev nul : UInt8 := 0
abbrev lf : UInt8 := 10
abbrev cr : UInt8 := 13
abbrev sp : UInt8 := 32
abbrev bang : UInt8 := 33
abbrev hash : UInt8 := 35
abbrev dollar : UInt8 := 36
abbrev percent : UInt8 := 37
abbrev amp : UInt8 := 38
abbrev quote : UInt8 := 39
abbrev lparen : UInt8 := 40
abbrev rparen : UInt8 := 41
abbrev star : UInt8 := 42
abbrev plus : UInt8 := 43
abbrev comma : UInt8 := 44
abbrev minus : UInt8 := 45
abbrev dot : UInt8 := 46
abbrev slash : UInt8 := 47
abbrev zero : UInt8 := 48
abbrev one : UInt8 := 49
abbrev nine : UInt8 := 57
abbrev colon : UInt8 := 58
abbrev semicolon : UInt8 := 59
abbrev equal : UInt8 := 61
abbrev question : UInt8 := 63
abbrev upperA : UInt8 := 65
abbrev upperH : UInt8 := 72
abbrev upperO : UInt8 := 79
abbrev upperP : UInt8 := 80
abbrev upperT : UInt8 := 84
abbrev upperZ : UInt8 := 90
abbrev lbracket : UInt8 := 91
abbrev rbracket : UInt8 := 93
abbrev underscore : UInt8 := 95
abbrev lowerA : UInt8 := 97
abbrev lowerZ : UInt8 := 122
abbrev tilde : UInt8 := 126

def IsDigit (ch : UInt8) : Prop := zero ≤ ch ∧ ch ≤ nine

def IsUpper (ch : UInt8) : Prop := upperA ≤ ch ∧ ch ≤ upperZ

/-- `c = (ch | 0x20); c >= 'a' && c <= 'z'` -/
def IsLetter (ch : UInt8) : Prop := lowerA ≤ ch ||| 0x20 ∧ ch ||| 0x20 ≤ lowerZ

instance : DecidablePred IsDigit := fun _ => inferInstanceAs (Decidable (_ ∧ _))
instance : DecidablePred IsUpper := fun _ => inferInstanceAs (Decidable (_ ∧ _))
instance : DecidablePred IsLetter := fun _ => inferInstanceAs (Decidable (_ ∧ _))

def digitValue (ch : UInt8) : Int := (ch.toNat : Int) - 48

def ofChars (cs : List Char) : List UInt8 := cs.map Char.toUInt8

/-- The bytes inside a line: neither NUL nor a line terminator. -/
def IsPlain (ch : UInt8) : Prop := ch ≠ nul ∧ ch ≠ cr ∧ ch ≠ lf

instance : DecidablePred IsPlain := fun _ => inferInstanceAs (Decidable (_ ∧ _))

/-- The end of a line: `true` for the one with a carriage return. -/
def lineBreak : Bool → List UInt8
  | true => [cr, lf]
  | false => [lf]

/-- Decide a property of every byte value by running through all of them. -/
theorem forall_byte {P : UInt8 → Prop} (h : ∀ n : Fin 256, P (UInt8.ofNat n)) (c : UInt8) : P c := by
  have hValue := h ⟨c.toNat, c.toNat_lt⟩
  simpa using hValue

end Ascii

/-- `lt_string_t`, less the field `hash`, which nothing reads. -/
structure LtString where
  length : Int := 0
  data : Nat := 0

structure HttpStatus where
  httpVersion : Int := 0
  code : Int := 0
  count : Int := 0
  start : Nat := 0
  end_ : Nat := 0

/-- `lt_buffer_t` without its `next` link; the array `start` is memory at that address. -/
structure LtBuffer where
  start : Nat
  pos : Nat
  last : Nat
  end_ : Nat

/-- The part of `request_t` that the parsers, the header loop and the chain
builders use. All fields default to zero, which is the zeroed `request_t`. -/
structure RequestT where
  state : Nat := 0
  methodName : LtString := {}
  methodEnd : Nat := 0
  method : Nat := 0
  httpProtocol : LtString := {}
  httpProtocolEnd : Nat := 0
  uri : LtString := {}
  unparsedUri : LtString := {}
  validUnparsedUri : Int := 0
  uriStart : Nat := 0
  uriEnd : Nat := 0
  uriExt : Nat := 0
  portEnd : Nat := 0
  hostStart : Nat := 0
  hostEnd : Nat := 0
  argsStart : Nat := 0
  schemaStart : Nat := 0
  schemaEnd : Nat := 0
  httpVersion : Int := 0
  complexUri : Int := 0
  quotedUri : Int := 0
  plusInUri : Int := 0
  spaceInUri : Int := 0
  requestLine : LtString := {}
  requestLength : Int := 0
  requestStart : Nat := 0
  requestEnd : Nat := 0
  headerStart : Nat := 0
  headerEnd : Nat := 0
  headerNameStart : Nat := 0
  headerNameEnd : Nat := 0
  elementHead : Option Nat := none
  elementTail : Option Nat := none
  headerHash : UInt32 := 0
  headerLength : Int := 0
  lowcaseIndex : Int := 0
  invalidHeader : Int := 0
  httpMajor : Int := 0
  httpMinor : Int := 0
  lowcaseHeader : Int → UInt8 := fun _ => 0
  upstream : Nat := 0
  status : HttpStatus := {}

/-- The return codes of the parsers and of the send and receive functions. -/
inductive Res where
  | lok
  | lagain
  | lerror
  | lclose
  | ngxHttpParseHeaderDone
  | ngxHttpParseInvalidMethod
  | ngxHttpParseInvalidRequest
  | ngxHttpParseInvalid09Method
  | ngxHttpParseInvalidHeader
  deriving DecidableEq, Repr

/-- The `int` of a return code. -/
def Res.code : Res → Int
  | .lok => 0
  | .lagain => -3
  | .lerror => -2
  | .lclose => -5
  | .ngxHttpParseHeaderDone => 1
  | .ngxHttpParseInvalidMethod => 10
  | .ngxHttpParseInvalidRequest => 11
  | .ngxHttpParseInvalid09Method => 12
  | .ngxHttpParseInvalidHeader => 13

/-- The bytes between `pos` and `last`, which a parser has still to read. -/
def LtBuffer.unread (b : LtBuffer) (mem : Mem) : List UInt8 :=
  Memory.slice mem b.pos b.last

theorem wrap32_of_bounds {x : Int} (hLow : -2 ^ 31 ≤ x) (hHigh : x < 2 ^ 31) : wrap32 x = x := by
  unfold wrap32
  rw [Int.bmod_eq_of_le] <;> omega

theorem ptrDiff_of_le {p q : Nat} (h : q ≤ p) (hBound : p - q < 2 ^ 31) :
    ptrDiff p q = ((p - q : Nat) : Int) := by
  unfold ptrDiff
  rw [wrap32_of_bounds (by omega) (by omega)]
  omega

theorem toSize_of_nat {n : Nat} (h : n < 2 ^ 64) : toSize (n : Int) = n := by
  unfold toSize
  omega

end Leactor
