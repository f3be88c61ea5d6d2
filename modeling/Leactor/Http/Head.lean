import Leactor.Library.Arena
import Leactor.Library.Loop
import Leactor.Parse.StatusLine

/-! The head of a message in http.c: what is kept of the request line, the
header loop with its element list, and the Host header. `lt_alloc` is taken to hand
out fresh elements, as `Pool.TypedPool.room_iff_le` says for the first 16 of a request. -/
namespace Leactor

open Ascii Scan Loop

/-- `BKDRhash`; a `char` is converted to `unsigned` with its sign. -/
def bkdrHash (w : List UInt8) : UInt32 :=
  w.foldl (fun hash ch => hash * 31 + ch.toInt8.toInt32.toUInt32) 0

/-- `HostHash = BKDRhash("Host", sizeof("Host"))`; `sizeof` counts the NUL. -/
def hostHash : UInt32 := bkdrHash (ofChars ['H', 'o', 's', 't'] ++ [nul])

def httpRequestLineParsed (r : RequestT) (headerIn : LtBuffer) : RequestT :=
  let r := { r with
    requestLine := { length := ptrDiff r.requestEnd r.requestStart, data := r.requestStart }
    requestLength := ptrDiff headerIn.pos r.requestStart
    methodName := { length := wrap32 (ptrDiff r.methodEnd r.requestStart + 1), data := r.requestStart }
    httpProtocol := { r.httpProtocol with length := ptrDiff r.requestEnd r.httpProtocol.data } }
  let r := { r with uri := { r.uri with length := ptrDiff r.uriEnd r.uriStart } }
  let r := if r.complexUri ≠ 0 ∨ r.quotedUri ≠ 0 then r
    else { r with uri := { r.uri with data := r.uriStart } }
  { r with
    unparsedUri := { length := ptrDiff r.uriEnd r.uriStart, data := r.uriStart }
    validUnparsedUri := if r.spaceInUri ≠ 0 then 0 else 1 }

/-- `mem[data + i] = tolower(mem[data + i])` for one `i`. -/
def lowcaseAt (data : Nat) (mem : Mem) (i : Nat) : Mem :=
  fun x => if x = data + i then tolower (mem x) else mem x

/-- The loop of `lowcase_key_copy_from_origin`. The copy shares its data with
the origin, so the bytes change in place. -/
def lowcaseKeyCopyFromOrigin (mem : Mem) (origin : LtString) : Mem × LtString :=
  ((List.range origin.length.toNat).foldl (lowcaseAt origin.data) mem, origin)

inductive HostState where
  | usual
  | literal
  | rest
  deriving DecidableEq, Repr

/-- The locals of `http_process_host`; the positions are of type `size_t`. -/
structure HostScan where
  state : HostState
  dotPos : Nat
  hostLen : Nat

/-- One turn of the loop of `http_process_host`; it halts with `LERROR`. -/
def hostByteStep : Machine UInt8 HostScan Unit := fun i σ ch =>
  if ch = dot then
    if σ.dotPos = toSize ((i : Int) - 1) then .halt () else .next { σ with dotPos := i }
  else if ch = colon then
    if σ.state = .usual then .next { σ with hostLen := i, state := .rest } else .next σ
  else if ch = lbracket then
    if i = 0 then .next { σ with state := .literal } else .next σ
  else if ch = rbracket then
    if σ.state = .literal then .next { σ with hostLen := i + 1, state := .rest } else .next σ
  else if ch = nul then .halt ()
  else if ch = slash then .halt ()
  else .next σ

/-- `http_process_host` on the memory and the string `host`. -/
def httpProcessHost (mem : Mem) (host : LtString) : Res × Mem × LtString :=
  let length := toSize host.length
  match run hostByteStep 0 ⟨.usual, length, length⟩
      (Memory.slice mem host.data (host.data + host.length.toNat)) with
  | .halted _ _ => (.lerror, mem, host)
  | .pending σ =>
      let hostLen := if σ.dotPos = toSize ((σ.hostLen : Int) - 1) then toSize ((σ.hostLen : Int) - 1)
        else σ.hostLen
      if hostLen = 0 then (.lerror, mem, host)
      else
        let (mem, host) := lowcaseKeyCopyFromOrigin mem host
        (.lok, mem, { host with length := wrap32 hostLen })

structure LtHttpHeaderElement where
  hash : UInt32
  length : Int
  key : LtString
  value : LtString
  lowcaseKey : LtString
  next : Option Nat

/-- `http_process_element`. It returns `LOK` always, as `http_find_host` does. -/
def httpProcessElement (mem : Mem) (r : RequestT) (element : LtHttpHeaderElement) :
    Mem × LtHttpHeaderElement :=
  let element := { element with length := r.headerLength }
  if element.hash = hostHash then
    let (_, mem, value) := httpProcessHost mem element.value
    (mem, { element with value := value })
  else (mem, element)

/-- A request while its head is read: the request, its buffer `header_in`, the
memory, and the blocks of its `header_pool_manager`. -/
structure Head where
  req : RequestT
  buf : LtBuffer
  mem : Mem
  elements : Arena LtHttpHeaderElement

/-- The body of `if (rc == LOK)` behind the test of `invalid_header`: a new
element is linked behind `prev` and filled. -/
def Head.addElement (h : Head) (prev : Option Nat) : Head × Option Nat :=
  let r := h.req
  let (id, elements) := h.elements.alloc
  let first := r.elementHead = none
  let elements :=
    match prev with
    | some p => if first then elements else elements.modify p fun e => { e with next := some id }
    | none => elements
  let key : LtString := ⟨ptrDiff r.headerNameEnd r.headerNameStart, r.headerNameStart⟩
  let value : LtString := ⟨ptrDiff r.headerEnd r.headerStart, r.headerStart⟩
  let (mem, lowcaseKey) := lowcaseKeyCopyFromOrigin h.mem key
  let (mem, element) := httpProcessElement mem r
    { hash := r.headerHash, length := 0, key := key, value := value, lowcaseKey := lowcaseKey,
      next := if first then (h.elements.junk id).next else none }
  ({ h with
      req := { r with
        elementHead := if first then some id else r.elementHead, elementTail := some id }
      mem := mem
      elements := elements.set id element },
    some id)

/-- One turn of the loop of `http_process_request_headers`. Only a finished
header block leaves the loop; every other return code starts the next turn. -/
def headerTurn : Head × Option Nat → Turn (Head × Option Nat) Head := fun (h, prev) =>
  let (rc, r, b) := ngxHttpParseHeaderLine h.mem h.req h.buf true
  let h := { h with req := r, buf := b }
  match rc with
  | .lok =>
      let h := { h with
        req := { r with requestLength := wrap32 (r.requestLength + ptrDiff b.pos r.headerNameStart) } }
      if h.req.invalidHeader ≠ 0 then .again (h, prev) else .again (h.addElement prev)
  | .ngxHttpParseHeaderDone => .exit h
  | _ => .again (h, prev)

def Head.clearElements (h : Head) : Head :=
  { h with req := { h.req with elementHead := none, elementTail := none } }

/-- `http_process_request_headers` within a number of turns; `exit` is its
return of `LOK`, and `again` is a loop that is still running. -/
def httpProcessRequestHeaders (fuel : Nat) (h : Head) : Turn (Head × Option Nat) Head :=
  iterate headerTurn fuel (h.clearElements, none)

/-- Given turns enough, the function comes back as its loop does. -/
theorem httpProcessRequestHeaders_returns_iff {h h' : Head} :
    (∃ fuel, ∀ n, fuel ≤ n → httpProcessRequestHeaders n h = .exit h') ↔
      Returns headerTurn (h.clearElements, none) h' :=
  returns_iff_eventually.symm

/-- A zeroed request whose buffer holds the bytes `w` and nothing behind them. -/
def Head.received (w : List UInt8) : Head where
  req := {}
  buf := { start := 1, pos := 1, last := 1 + w.length, end_ := 1 + 16384 }
  mem := Memory.place (fun _ => 0) 1 w
  elements := { cells := [], junk := fun _ => ⟨0, 0, {}, {}, {}, none⟩ }

end Leactor
