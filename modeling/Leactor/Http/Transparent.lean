import Leactor.Http.Serving

/-! One leactor behind another: what has passed the one passes the other one unchanged. -/
namespace Leactor

open Ascii Scan Loop Run Memory

namespace HeaderText

def Spaced (l : HeaderText) : Prop := ∃ f, l.field = some f ∧ 1 ≤ f.before

variable {l : HeaderText}

theorem Spaced.lowered (h : l.Spaced) : l.lowered.Spaced := by
  obtain ⟨f, hField, hBefore⟩ := h
  rw [Spaced, HeaderText.lowered, hField]
  split_ifs
  · exact ⟨f.lower, rfl, hBefore⟩
  · exact ⟨f, rfl, hBefore⟩

theorem Spaced.narrowed_field (h : l.Spaced) :
    ∃ f, l.field = some f ∧ l.narrowed.field = some { f with before := 1 } := by
  obtain ⟨f, hField, hBefore⟩ := h
  refine ⟨f, hField, ?_⟩
  rw [narrowed, hField, Option.map_some, min_eq_right hBefore]

theorem Spaced.narrowed (h : l.Spaced) : l.narrowed.Spaced := by
  obtain ⟨f, -, hField⟩ := h.narrowed_field
  exact ⟨_, hField, Nat.le_refl 1⟩

theorem Spaced.gapBytes (h : l.Spaced) : l.narrowed.gapBytes = [colon, sp] := by
  obtain ⟨f, -, hField⟩ := h.narrowed_field
  simp [HeaderText.gapBytes, hField]

theorem Spaced.endBytes (h : l.Spaced) : l.narrowed.endBytes = l.endBytes := by
  obtain ⟨f, hField, hBefore⟩ := h
  simp [HeaderText.endBytes, HeaderText.narrowed, hField, Nat.sub_eq_zero_of_le hBefore]

theorem Relayable.narrowed (h : l.Relayable) (hSpaced : l.Spaced) : l.narrowed.Relayable := by
  obtain ⟨f, hField, hBefore⟩ := hSpaced.narrowed
  refine ⟨⟨f, hField, Or.inl hBefore⟩, ?_⟩
  have hKept := h.whole
  simp only [keptLength, NamesHost, narrowed_value] at hKept ⊢
  exact hKept

/-- Once more through a proxy, a line stays as it is. -/
theorem Spaced.narrowed_again (h : l.Spaced) :
    l.lowered.narrowed.lowered.narrowed.bytes = l.lowered.narrowed.bytes := by
  have hOnce := h.lowered
  have hTwice := hOnce.narrowed.lowered
  obtain ⟨hName, hValue⟩ := l.lowered_lowered
  obtain ⟨hSame, hSame', -⟩ : l.lowered.narrowed.lowered.name = l.lowered.lowered.name ∧
      l.lowered.narrowed.lowered.value = l.lowered.lowered.value ∧ _ := lowered_congr rfl (narrowed_value _)
  rw [bytes_eq, bytes_eq, hTwice.gapBytes, hOnce.gapBytes, hTwice.endBytes, lowered_endBytes, hOnce.endBytes,
    narrowed_value, narrowed_value, hSame', hValue]
  change l.lowered.narrowed.lowered.name ++ _ = l.lowered.name ++ _
  rw [hSame, hName]

end HeaderText

section Lines

variable {tail : Nat} {lines : List (List UInt8 × HeaderText)}

theorem relayLines_invalid (lines : List (List UInt8 × HeaderText)) :
    (∀ e ∈ relayLines lines, ¬ e.2.Valid) ↔ ∀ e ∈ lines, ¬ e.2.Valid := by
  induction lines with
  | nil => rfl
  | cons e lines ih =>
      obtain ⟨skip, l⟩ := e
      rw [relayLines, List.forall_mem_cons]
      by_cases hValid : l.Valid
      · rw [if_pos hValid, List.forall_mem_cons]
        exact iff_of_false (fun hNone => hNone.1 hValid) fun hNone => hNone.1 hValid
      · rw [if_neg hValid, ih]
        exact (and_iff_right hValid).symm

theorem map_lowerText_valid (lines : List (List UInt8 × HeaderText)) :
    (∀ e ∈ lines.map lowerText, ¬ e.2.Valid) ↔ ∀ e ∈ lines, ¬ e.2.Valid := by
  simp only [List.mem_map, forall_exists_index, and_imp, forall_apply_eq_imp_iff₂, lowerText_valid]

theorem map_lowerText_of_invalid (h : ∀ e ∈ lines, ¬ e.2.Valid) : lines.map lowerText = lines := by
  induction lines with
  | nil => rfl
  | cons e lines ih =>
      rw [List.forall_mem_cons] at h
      rw [List.map_cons, ih h.2, lowerText, if_neg h.1]

def SpacedLines (lines : List (List UInt8 × HeaderText)) : Prop := ∀ e ∈ lines, e.2.Valid → e.2.Spaced

theorem SpacedLines.lowered (h : SpacedLines lines) : SpacedLines (lines.map lowerText) := by
  intro e he hValid
  obtain ⟨e', he', rfl⟩ := List.mem_map.mp he
  have hValid' := (lowerText_valid e').mp hValid
  rw [lowerText, if_pos hValid']
  exact (h e' he' hValid').lowered

/-- The lines of a chain are lines as the builders expect them. -/
theorem Relays.relayed (h : Relays tail lines) (hSpaced : SpacedLines lines) : Relays tail (relayLines lines) := by
  induction h with
  | @last skip l back hValid hLine hBack hEnd =>
      have hHere := hSpaced _ List.mem_cons_self hValid
      rw [relayLines, if_pos hValid, if_pos hBack]
      exact .last hValid (hLine.narrowed hHere) hBack (by rwa [hHere.endBytes])
  | @valid skip l lines hValid hLine hEnd hRest ih =>
      have hHere := hSpaced _ List.mem_cons_self hValid
      rw [relayLines, if_pos hValid, if_neg hRest.exists_valid]
      exact .valid hValid (hLine.narrowed hHere) (by rw [hHere.endBytes, hEnd])
        (ih fun e he => hSpaced e (List.mem_cons_of_mem _ he))
  | @invalid skip l lines hValid hRest ih =>
      rw [relayLines, if_neg hValid]
      exact ih fun e he => hSpaced e (List.mem_cons_of_mem _ he)

/-- Once more through a proxy, the lines of a chain stay as they are: there is nothing
left to put into lower case, or to cut. -/
theorem SpacedLines.relayed_again (h : SpacedLines lines) :
    HeaderBlock.linesBytes (relayLines ((relayLines (lines.map lowerText)).map lowerText)) =
      HeaderBlock.linesBytes (relayLines (lines.map lowerText)) := by
  induction lines with
  | nil => rfl
  | cons e lines ih =>
      obtain ⟨skip, l⟩ := e
      have hRest : SpacedLines lines := fun e he => h e (List.mem_cons_of_mem _ he)
      rw [List.map_cons]
      by_cases hValid : l.Valid
      · have hHere : l.lowered.narrowed.lowered.narrowed.bytes = l.lowered.narrowed.bytes :=
          (h (skip, l) List.mem_cons_self hValid).narrowed_again
        have hLow := l.lowered_valid.mpr hValid
        have hFirst : lowerText (skip, l) = (skip, l.lowered) := Prod.ext rfl (if_pos hValid)
        have hLower : lowerText ([], l.lowered.narrowed) = ([], l.lowered.narrowed.lowered) :=
          Prod.ext rfl (if_pos hLow)
        simp only [hFirst, relayLines, if_pos hLow, List.map_cons, hLower]
        rw [if_pos (l.lowered.narrowed.lowered_valid.mpr hLow), HeaderBlock.linesBytes_cons,
          HeaderBlock.linesBytes_cons, hHere]
        congr 2
        by_cases hNone : ∀ e ∈ lines, ¬ e.2.Valid
        · rw [map_lowerText_of_invalid hNone, if_pos hNone, map_lowerText_of_invalid hNone, if_pos hNone]
        · have hSome : ¬ ∀ e ∈ lines.map lowerText, ¬ e.2.Valid := fun hAll => hNone ((map_lowerText_valid _).mp hAll)
          have hSome' : ¬ ∀ e ∈ (relayLines (lines.map lowerText)).map lowerText, ¬ e.2.Valid := fun hAll =>
            hSome ((relayLines_invalid _).mp ((map_lowerText_valid _).mp hAll))
          rw [if_neg hSome, if_neg hSome']
          exact ih hRest
      · have hFirst : lowerText (skip, l) = (skip, l) := Prod.ext rfl (if_neg hValid)
        simp only [hFirst, relayLines, if_neg hValid]
        exact ih hRest

end Lines

def RequestText.relayed (x : RequestText) (hSpaced : SpacedLines x.block.lines) : RequestText where
  line := x.line.relayed
  block := x.block.relayed
  path := x.line.target.relayed_path x.path
  unmarked := fun hMarked => x.unmarked (x.line.target.relayed_marked.mp hMarked)
  version := x.version
  current := x.current
  crlf := x.crlf
  readable := HeaderBlock.relayed_readable x.readable
  relayable := Relays.relayed x.relayable.lowered hSpaced.lowered

theorem RequestText.relayed_bytes (x : RequestText) (hSpaced : SpacedLines x.block.lines) :
    (x.relayed hSpaced).bytes = x.sent := rfl

theorem RequestText.relayed_sent (x : RequestText) (hSpaced : SpacedLines x.block.lines) :
    (x.relayed hSpaced).sent = x.sent := by
  have hLine : x.line.relayed.relayed = x.line.relayed := by
    obtain ⟨skip, method, gap, target, space, version, crlf, _, _, _, _⟩ := x.line
    cases target <;> rfl
  have hBlock := hSpaced.relayed_again
  rw [sent, sent]
  change x.line.relayed.relayed.bytes ++ _ = _
  rw [hLine]
  congr 1
  simp only [HeaderBlock.bytes, RequestText.relayed, HeaderBlock.relayed, HeaderBlock.lowered, hBlock]

theorem map_tolower_tolower (w : List UInt8) : (w.map tolower).map tolower = w.map tolower := by
  simp only [List.map_map, Function.comp_def, tolower_tolower]

def FieldLine.lower (l : FieldLine) : FieldLine where
  name := l.name.map tolower
  value := l.value
  name_ne := fun hNil => l.name_ne (List.map_eq_nil_iff.mp hNil)
  name_plain := by
    simp only [List.mem_map, forall_exists_index, and_imp, forall_apply_eq_imp_iff₂]
    exact fun c hc => ⟨tolower_plain c (l.name_plain c hc).1, tolower_ne_colon c (l.name_plain c hc).2⟩
  value_plain := l.value_plain
  value_head := l.value_head
  value_last := l.value_last

theorem FieldLine.lower_lowerBytes (l : FieldLine) : l.lower.lowerBytes = l.lower.bytes := by
  rw [lowerBytes, bytes, lower, map_tolower_tolower]

def ResponseHead.lower (x : ResponseHead) : ResponseHead where
  status := x.status
  lines := x.lines.map FieldLine.lower
  lines_ne := fun hNil => x.lines_ne (List.map_eq_nil_iff.mp hNil)

theorem ResponseHead.lower_bytes (x : ResponseHead) : x.lower.bytes = x.lowerBytes := by
  rw [bytes, lowerBytes, lower, List.flatMap_map]
  rfl

theorem ResponseHead.lower_lowerBytes (x : ResponseHead) : x.lower.lowerBytes = x.lower.bytes := by
  simp only [bytes, lowerBytes, lower, List.flatMap_map, FieldLine.lower_lowerBytes]

namespace ServiceRound

def RequestsRelayed (r : ServiceRound) : Prop :=
  ∀ x ∈ r.asks, ∀ y ∈ x.2, ∃ (z : RequestText) (hSpaced : SpacedLines z.block.lines), y = z.relayed hSpaced

def ResponseRelayed (r : ServiceRound) : Prop := ∃ z : ResponseHead, r.head = z.lower

variable {r : ServiceRound}

theorem Served.up_eq (h : r.Served) (hRelayed : r.RequestsRelayed) : r.up = r.asks.flatMap fun x => x.1.batch := by
  refine List.flatMap_congr fun x hx => ?_
  rw [(h.asks x hx).batch]
  refine List.flatMap_congr fun y hy => ?_
  obtain ⟨z, hSpaced, rfl⟩ := hRelayed x hx y hy
  rw [z.relayed_sent, z.relayed_bytes]

theorem Served.down_eq (h : r.Served) (hRelayed : r.ResponseRelayed) : r.down = r.wakes.flatMap (·.batch) := by
  obtain ⟨z, hHead⟩ := hRelayed
  rw [down, h.bytes, hHead, z.lower_lowerBytes]

end ServiceRound

namespace Worker

variable {k : Kernel} {junk : Nat → Nat → Nat → LtChain} {w w' : Worker}

/-- A leactor is transparent to another one: requests that have passed a leactor reach the
upstream byte by byte as they came, and responses that have passed one reach the client so. -/
theorem transparent_of_run {p : Nat → Nat} {ev : Nat → EventT} {tail : Option Nat} {fds : Nat → Int}
    {handlers : Nat → Handler} {blocks : Nat → ConnectionT} {listenFd : Int} {refused : Bool}
    (hRun : Arrives (Step k junk) Fits
      (httpWorkerNew ⟨Base.ltBaseInit p ev tail, fds, fun _ => none⟩ handlers blocks listenFd refused) w)
    {i : Nat} {client proxy : ConnectionT} (hEven : i % 2 = 0) (hClient : w.conns.get? i = some client)
    (hPair : client.pair.bind w.conns.get? = some proxy)
    (hLinks : ∀ n m, (junk i n m).next = none) (hWritev : ∀ n w, w ≠ [] → k.writev proxy.fd n w = .wrote w.length)
    {as : List WorkerAction} (hTrail : Trail (Step k junk) Fits w as w') {ready : List Bool}
    {rounds : List ServiceRound} (hServed : ∀ r ∈ rounds, r.Served)
    (hOwn : as.filterMap (WorkerAction.own client.fd proxy.fd) =
      ready.map .writable ++ rounds.flatMap ServiceRound.actions) :
    ((∀ r ∈ rounds, r.RequestsRelayed) → w'.taken proxy.fd =
        w.taken proxy.fd ++ rounds.flatMap fun r => r.asks.flatMap fun x => x.1.batch) ∧
      ((∀ r ∈ rounds, r.ResponseRelayed) → w'.taken client.fd =
        w.taken client.fd ++ rounds.flatMap fun r => r.wakes.flatMap (·.batch)) := by
  obtain ⟨hUp, hDown⟩ := (wired_of_run hRun).served (Phased.of_run hRun) hEven hClient hPair hLinks hWritev hTrail hServed
    hOwn
  refine ⟨fun hRelayed => ?_, fun hRelayed => ?_⟩
  · rw [hUp, List.flatMap_congr fun r hr => (hServed r hr).up_eq (hRelayed r hr)]
  · rw [hDown, List.flatMap_congr fun r hr => (hServed r hr).down_eq (hRelayed r hr)]

theorem get_spaced : SpacedLines getRequest.text.block.lines :=
  List.forall_mem_singleton.mpr fun _ => ⟨_, rfl, by decide⟩

theorem relayed_fits : Deliverable defaultBufSize [okHead.lower.bytes ++ [120]] := ⟨by decide, by decide, trivial⟩

/-- A request that has passed a leactor, and a response that has passed one. -/
def relayedRound : ServiceRound where
  asks := [(oneBatch (getRequest.text.relayed get_spaced).bytes ⟨by decide, by decide, trivial⟩,
    [getRequest.text.relayed get_spaced])]
  head := okHead.lower
  body := [120]
  wakes := [rowWakeUp [okHead.lower.bytes ++ [120]] (fun w => .wrote w.length) relayed_fits single_few]

theorem relayedRound_served : ∀ r ∈ [relayedRound], r.Served := by
  refine List.forall_mem_singleton.mpr ⟨List.cons_ne_nil _ _, List.forall_mem_singleton.mpr ?_, rfl, ?_, ?_⟩
  · exact ⟨List.cons_ne_nil _ _, rfl, by decide, by decide, rfl⟩
  · exact List.forall_mem_singleton.mpr ⟨fun _ _ => rfl, fun _ _ => rfl⟩
  · refine ⟨[], _, [], [], rfl, List.forall_mem_nil _, ⟨⟨⟨[120], rfl⟩, by decide, ?_, rfl, rfl⟩, rfl⟩,
      List.forall_mem_nil _, List.forall_mem_nil _⟩
    exact List.forall_mem_singleton.mpr
      ⟨List.forall_mem_singleton.mpr (by decide), fun hHost => absurd hHost (by decide)⟩

theorem relayedRound_onePool : ∀ r ∈ [relayedRound], r.OnePool :=
  List.forall_mem_singleton.mpr (List.forall_mem_singleton.mpr (List.forall_mem_singleton.mpr (by decide)))

theorem transparent_of_run_oneClient :
    ∃ w', Trail (Step willingKernel nullLinks) Fits oneClient
        (([relayedRound].flatMap ServiceRound.actions).map (PairAction.on 4 5)) w' ∧
      w'.taken 5 = [] ++ [relayedRound].flatMap (fun r => r.asks.flatMap fun x => x.1.batch) ∧
      w'.taken 4 = [] ++ [relayedRound].flatMap fun r => r.wakes.flatMap (·.batch) := by
  obtain ⟨w', hTrail⟩ := exists_trail_oneClient relayedRound_served relayedRound_onePool
  have hOwn : (([relayedRound].flatMap ServiceRound.actions).map (PairAction.on 4 5)).filterMap
      (WorkerAction.own 4 5) = ([] : List Bool).map .writable ++ [relayedRound].flatMap ServiceRound.actions := rfl
  obtain ⟨hUp, hDown⟩ := transparent_of_run (arrives_oneClient willingKernel nullLinks) rfl oneClient_conns.1
    oneClient_conns.2 (fun _ _ => rfl) (fun _ _ _ => rfl) hTrail relayedRound_served hOwn
  refine ⟨w', hTrail, hUp (List.forall_mem_singleton.mpr ?_), hDown (List.forall_mem_singleton.mpr ⟨okHead, rfl⟩)⟩
  exact List.forall_mem_singleton.mpr (List.forall_mem_singleton.mpr ⟨_, get_spaced, rfl⟩)

end Worker

end Leactor
