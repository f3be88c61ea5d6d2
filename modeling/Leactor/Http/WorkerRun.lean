import Leactor.Http.Wiring

/-! Runs of the worker: whatever its clients and their upstreams send, a callback writes
only to the socket that is paired with the one it was called for. -/
namespace Leactor

open Loop Run Memory

section Turns

variable {ω ω' : Type*} {send : Head → ω → Option ω}

/-- What sends in step with another keeps in step with it over all requests of a buffer. -/
theorem requestTurn_simulates (send' : Head → ω' → Option ω') {R : ω → ω' → Prop}
    (hSend : ∀ h w v w', R w v → send h w = some w' → ∃ v', send' h v = some v' ∧ R w' v')
    {phase : Phase} {h h' : Head} {res : Res} {w w' : ω} {v : ω'}
    (hRun : Returns (requestTurn send) (phase, h, w) (some (res, h', w'))) (hRel : R w v) :
    ∃ v', Returns (requestTurn send') (phase, h, v) (some (res, h', v')) ∧ R w' v' := by
  obtain ⟨n, hn⟩ := hRun
  induction n generalizing phase h w v with
  | zero => cases hn
  | succ n ih =>
      rw [iterate] at hn
      cases phase with
      | requestLine =>
          simp only [requestTurn] at hn
          split_ifs at hn with hLine
          · obtain ⟨v', hRest, hRel'⟩ := ih hRel hn
            refine ⟨v', (returns_again_iff ?_).mpr hRest, hRel'⟩
            simp only [requestTurn, if_pos hLine]
          · cases hn
            refine ⟨v, returns_of_exit ?_, hRel⟩
            simp only [requestTurn, if_neg hLine]
      | headers prev =>
          simp only [requestTurn] at hn
          cases hTurn : headerTurn (h, prev) with
          | again t =>
              rw [hTurn] at hn
              obtain ⟨v', hRest, hRel'⟩ := ih hRel hn
              refine ⟨v', (returns_again_iff ?_).mpr hRest, hRel'⟩
              simp only [requestTurn, hTurn]
          | exit g =>
              rw [hTurn] at hn
              cases hCall : send g w with
              | none =>
                  simp only [hCall] at hn
                  cases hn
              | some w₁ =>
                  simp only [hCall] at hn
                  obtain ⟨v₁, hCall', hRel₁⟩ := hSend g w v w₁ hRel hCall
                  obtain ⟨v', hRest, hRel'⟩ := ih hRel₁ hn
                  refine ⟨v', (returns_again_iff ?_).mpr hRest, hRel'⟩
                  simp only [requestTurn, hTurn, hCall']

/-- What every send keeps is kept over all requests of a buffer. -/
theorem requestTurn_keeps {I : ω → Prop} (hSend : ∀ h w w', I w → send h w = some w' → I w') {phase : Phase}
    {h h' : Head} {res : Res} {w w' : ω} (hRun : Returns (requestTurn send) (phase, h, w) (some (res, h', w')))
    (hStart : I w) : I w' := by
  obtain ⟨-, -, hKept⟩ := requestTurn_simulates (fun _ (_ : Unit) => some ()) (R := fun w _ => I w)
    (fun h w v w' hKept hCall => ⟨(), rfl, hSend h w w' hKept hCall⟩) hRun (v := ()) hStart
  exact hKept

end Turns

namespace Worker

/-- What a callback of the connection `i` leaves alone: all links, all other pairs, and
the bytes of all sockets but that of its pair. -/
structure Touches (w w' : Worker) (i : Nat) : Prop where
  listen : w'.listenFd = w.listenFd
  sockets : w'.sockets = w.sockets
  links : ∀ m, (w'.conns.get? m).map ConnectionT.links = (w.conns.get? m).map ConnectionT.links
  others : ∀ m, m ≠ i → m ≠ partner i → w'.conns.get? m = w.conns.get? m
  traffic : ∀ fd, w'.taken fd ≠ w.taken fd ∨ w'.calls fd ≠ w.calls fd →
    ∃ d, w.conns.get? (partner i) = some d ∧ d.fd = fd
  handed : ∀ m, m ≠ i → w'.handed m = w.handed m

theorem Touches.refl (w : Worker) (i : Nat) : w.Touches w i where
  listen := rfl
  sockets := rfl
  links _ := rfl
  others _ _ _ := rfl
  traffic _ hNe := hNe.elim (fun hNot => absurd rfl hNot) fun hNot => absurd rfl hNot
  handed _ _ := rfl

section Links

variable {w w' w'' : Worker} {i m : Nat} {c : ConnectionT}

/-- The links of a connection stay. -/
theorem Touches.exists_links (h : w.Touches w' i) (hc : w.conns.get? m = some c) :
    ∃ c', w'.conns.get? m = some c' ∧ c'.links = c.links := by
  have hLinks := h.links m
  rw [hc, Option.map_some] at hLinks
  exact Option.map_eq_some_iff.mp hLinks

theorem Touches.exists_links_before (h : w.Touches w' i) (hc : w'.conns.get? m = some c) :
    ∃ c', w.conns.get? m = some c' ∧ c'.links = c.links := by
  have hLinks := h.links m
  rw [hc, Option.map_some] at hLinks
  exact Option.map_eq_some_iff.mp hLinks.symm

theorem Touches.trans (h : w.Touches w' i) (h' : w'.Touches w'' i) : w.Touches w'' i where
  listen := h'.listen.trans h.listen
  sockets := h'.sockets.trans h.sockets
  links m := (h'.links m).trans (h.links m)
  others m hNe hNe' := (h'.others m hNe hNe').trans (h.others m hNe hNe')
  traffic fd hChange := by
    by_cases hFirst : w'.taken fd ≠ w.taken fd ∨ w'.calls fd ≠ w.calls fd
    · exact h.traffic fd hFirst
    · rw [not_or, not_not, not_not] at hFirst
      rw [← hFirst.1, ← hFirst.2] at hChange
      obtain ⟨d, hd, hFd⟩ := h'.traffic fd hChange
      obtain ⟨c, hc, hLinks⟩ := h.exists_links_before hd
      exact ⟨c, hc, (congrArg Prod.fst hLinks).trans hFd⟩
  handed m hNe := (h'.handed m hNe).trans (h.handed m hNe)

end Links

section Send

variable {w w' : Worker} {i : Nat}

theorem get?_setStatus (w : Worker) (j m : Nat) (status : Int) :
    (w.setStatus j status).conns.get? m =
      if j = m then (w.conns.get? m).map fun c => { c with status := status } else w.conns.get? m :=
  w.conns.get?_modify j m _

theorem touches_setStatus (w : Worker) {j : Nat} (hj : j = i ∨ j = partner i) (status : Int) :
    w.Touches (w.setStatus j status) i := by
  refine ⟨rfl, rfl, fun m => ?_, fun m hNe hNe' => ?_, (Touches.refl w i).traffic, fun _ _ => rfl⟩
  · rw [get?_setStatus]
    split_ifs
    · rw [Option.map_map]
      rfl
    · rfl
  · rw [get?_setStatus, if_neg]
    rintro rfl
    exact hj.elim hNe hNe'

theorem touches_took (w : Worker) {d : ConnectionT} (hd : w.conns.get? (partner i) = some d) (bytes : List UInt8) :
    w.Touches (w.took d.fd bytes) i := by
  refine ⟨rfl, rfl, fun _ => rfl, fun _ _ _ => rfl, fun fd hChange => ⟨d, hd, ?_⟩, fun _ _ => rfl⟩
  by_contra hNe
  simp only [took, Function.update_of_ne (Ne.symm hNe), ne_eq, not_true_eq_false, or_self] at hChange

theorem touches_ltIoMod (w : Worker) (i : Nat) (ev : Option Nat) (flag : Nat) (callback : Handler) (refused : Bool) :
    w.Touches (w.ltIoMod ev flag callback refused) i := by
  cases ev with
  | none => exact Touches.refl w i
  | some e => exact { Touches.refl w i with }

theorem touches_settleSend (w : Worker) (i : Nat) (fd : Int) (posted : Handler) (res : Res) :
    w.Touches (w.settleSend i (partner i) fd posted res) i := by
  have hPair : ∀ (w : Worker) status, w.Touches (w.setStatus (partner i) status) i := fun w =>
    w.touches_setStatus (Or.inr rfl)
  cases res with
  | lok => exact (w.touches_setStatus (Or.inl rfl) lConnectingAccepted).trans (hPair _ _)
  | lagain =>
      have hPost : w.Touches (w.ltNewPostCallback posted fd) i := { Touches.refl w i with }
      exact hPost.trans (hPair _ _)
  | _ => exact hPair _ _

theorem Wired.settleSend (h : w.Wired) (posted : Handler) (hPosted : posted.Posted) (conn pair : Nat) (fd : Int)
    (res : Res) : (w.settleSend conn pair fd posted res).Wired := by
  cases res with
  | lagain => exact (h.ltNewPostCallback hPosted fd).of_wiring (wiring_setStatus _ _ _)
  | lok => exact h.of_wiring ((wiring_setStatus _ _ _).trans (wiring_setStatus _ _ _))
  | _ => exact h.of_wiring (wiring_setStatus _ _ _)

end Send

section Callbacks

variable {k : Kernel} {junk : Nat → Nat → Nat → LtChain} {w w' : Worker} {i : Nat} {client : ConnectionT} {h : Head}
  {chains : Arena LtChain} {outChain : Nat}

/-- `http_send_to_upstream` keeps the wiring, and writes to the socket of the pair. -/
theorem Wired.httpSendToUpstream (hWired : w.Wired) (hc : w.conns.get? i = some client) (hEven : i % 2 = 0)
    (hSend : httpSendToUpstream k i h chains outChain w = some w') : w'.Wired ∧ w.Touches w' i := by
  rw [Worker.httpSendToUpstream, hc, Option.bind_some, hWired.pair i client hc] at hSend
  obtain ⟨e, -, hSend⟩ := Option.bind_eq_some_iff.mp hSend
  rw [Option.bind_some] at hSend
  obtain ⟨proxy, hProxy, hSend⟩ := Option.bind_eq_some_iff.mp hSend
  obtain ⟨vec, -, hSend⟩ := Option.bind_eq_some_iff.mp hSend
  obtain ⟨result, -, rfl⟩ := Option.map_eq_some_iff.mp hSend
  generalize (iovBytes h.mem vec.1).take _ = bytes
  generalize k.refused proxy.fd (w.calls proxy.fd) = refused
  have hTook := w.touches_took hProxy bytes
  have hTouches := hTook.trans ((w.took proxy.fd bytes).touches_settleSend i proxy.fd
    (.resendChains i h result.2.1 outChain) result.1)
  have hSettled := (hWired.of_wiring (w.wiring_took proxy.fd bytes)).settleSend
    (.resendChains i h result.2.1 outChain) trivial i (partner i) proxy.fd result.1
  refine ⟨?_, hTouches.trans (touches_ltIoMod _ _ _ _ _ _)⟩
  cases hEv : proxy.ev with
  | none => exact hSettled
  | some e =>
      obtain ⟨d, hd, hLinks⟩ := hTouches.exists_links hProxy
      exact hSettled.ltIoMod hd ((congrArg (·.2.1) hLinks).trans hEv)
        (.proxyDataComing (partner i)) ⟨rfl, partner_odd hEven⟩ _ _

theorem Wired.sendRequest (hWired : w.Wired) (hc : w.conns.get? i = some client) (hEven : i % 2 = 0)
    (hSend : sendRequest k junk i h w = some w') : w'.Wired ∧ w.Touches w' i := by
  obtain ⟨built, -, hSend⟩ := Option.bind_eq_some_iff.mp hSend
  obtain ⟨vec, -, hSend⟩ := Option.bind_eq_some_iff.mp hSend
  have hHanded : w.Touches (w.handing i (iovBytes h.mem vec.1)) i :=
    { Touches.refl w i with handed := fun m hNe => Function.update_of_ne hNe _ _ }
  obtain ⟨hNext, hTouches⟩ := (hWired.of_wiring (w.wiring_handing i _)).httpSendToUpstream hc hEven hSend
  exact ⟨hNext, hHanded.trans hTouches⟩

/-- `http_data_coming` passes requests on to the socket of the pair. -/
theorem Wired.httpDataComing {u : ClientWakeUp} (hWired : w.Wired) (hEven : i % 2 = 0)
    (hCall : HttpDataComing k junk u i w w') : w'.Wired ∧ w.Touches w' i := by
  cases hCall with
  | @parsed client rv s res h' _ hConn hStatus hRecv hLine =>
      refine requestTurn_keeps (I := fun v => v.Wired ∧ w.Touches v i) (fun g v v' hKept hSend => ?_) hLine
        ⟨hWired, Touches.refl w i⟩
      obtain ⟨c, hc, -⟩ := hKept.2.exists_links hConn
      obtain ⟨hNext, hTouches⟩ := hKept.1.sendRequest hc hEven hSend
      exact ⟨hNext, hKept.2.trans hTouches⟩
  | ignored => exact ⟨hWired, Touches.refl w i⟩

/-- `proxy_data_coming` passes responses on to the socket of the pair. -/
theorem Wired.proxyDataComing {u : ProxyWakeUp} (hWired : w.Wired) (hCall : ProxyDataComing u i w w') :
    w'.Wired ∧ w.Touches w' i := by
  cases hCall with
  | @call proxy client pair mem handling c hConn hPair hClient =>
      obtain rfl : partner i = pair := Option.some.inj ((hWired.pair i proxy hConn).symm.trans hPair)
      have hStatus := w.touches_setStatus (Or.inl rfl : i = i ∨ i = partner i) c.status
      refine ⟨hWired.of_wiring (w.wiring_setStatus i c.status), { hStatus with traffic := fun fd hChange => ?_ }⟩
      refine ⟨client, hClient, ?_⟩
      by_contra hNe
      refine hChange.elim (fun hNot => hNot ?_) fun hNot => hNot rfl
      exact Function.update_of_ne (Ne.symm hNe) _ _

theorem Wired.proxyConnectWritable (hWired : w.Wired) (i : Nat) (connected : Bool) :
    (w.proxyConnectWritable i connected).Wired ∧ w.Touches (w.proxyConnectWritable i connected) i := by
  unfold Worker.proxyConnectWritable
  split_ifs
  · exact ⟨hWired.of_wiring (w.wiring_setStatus _ _), w.touches_setStatus (Or.inl rfl) _⟩
  · exact ⟨hWired, Touches.refl w i⟩

end Callbacks

/-- Connections were added, and nothing else has changed. -/
structure Grown (w w' : Worker) : Prop where
  listen : w'.listenFd = w.listenFd
  conns : ∀ i c, w.conns.get? i = some c → w'.conns.get? i = some c
  taken : w'.taken = w.taken
  calls : w'.calls = w.calls
  handed : w'.handed = w.handed

section Accept

variable {w w' w'' : Worker}

theorem Grown.refl (w : Worker) : w.Grown w := ⟨rfl, fun _ _ => id, rfl, rfl, rfl⟩

theorem Grown.trans (h : w.Grown w') (h' : w'.Grown w'') : w.Grown w'' where
  listen := h'.listen.trans h.listen
  conns i c hc := h'.conns i c (h.conns i c hc)
  taken := h'.taken.trans h.taken
  calls := h'.calls.trans h.calls
  handed := h'.handed.trans h.handed

theorem grown_httpInitConnection (w : Worker) (fd : Int) {fd' : Int} {a : Arrival} (hSocket : a.socket = some fd') :
    w.Grown (w.httpInitConnection fd a).2 := by
  obtain ⟨-, client, proxy, hConns, -⟩ := w.conns_httpInitConnection fd hSocket
  obtain ⟨-, -, hListen, -⟩ := w.poller_httpInitConnection fd hSocket
  refine ⟨hListen, fun i c hc => ?_, ?_, ?_, ?_⟩
  · have hi := Arena.lt_fresh hc
    rw [hConns, if_neg (by omega), if_neg (by omega), hc]
  all_goals
    cases hConnect : a.connect <;>
      simp [httpInitConnection, proxyConnect, hSocket, hConnect, modify, opened, setStatus, Worker.ltIoAdd]

/-- `start_accept` leaves the connections that there are alone. -/
theorem grown_startAccept {arrivals : List Arrival} {rv : Int} (hGrants : w.Grants (arrivals.take somaxconn))
    (hCall : w.startAccept arrivals = .returned rv w') : w.Grown w' := by
  refine startAccept_keeps hGrants hCall (Grown.refl w) fun v a fd fd' hGrown hGranted => ?_
  have hOpened : v.Grown (v.opened fd) := { Grown.refl v with }
  exact hGrown.trans (hOpened.trans (grown_httpInitConnection _ fd hGranted.socket))

end Accept

/-- What the kernel is asked for: `start_accept` gets sockets that are not open yet. -/
def Fits (w : Worker) : WorkerAction → Prop
  | .accept _ arrivals => w.Grants (arrivals.take somaxconn)
  | _ => True

/-- `fd'` is the socket to which the pointers lead from the connection of `fd`. -/
def PairedSockets (w : Worker) (fd fd' : Int) : Prop :=
  ∃ i c j d, w.conns.get? i = some c ∧ c.fd = fd ∧ c.pair = some j ∧ w.conns.get? j = some d ∧ d.fd = fd'

section Run

variable {k : Kernel} {junk : Nat → Nat → Nat → LtChain} {w w' : Worker} {a : WorkerAction}

/-- A step keeps the wiring: it adds connections, or is a callback of the connection
whose socket was reported. -/
theorem Wired.step (h : w.Wired) (hFits : w.Fits a) (hStep : Step k junk w a w') :
    w'.Wired ∧ ((∃ fd arrivals, a = .accept fd arrivals) ∧ w.Grown w' ∨
      ∃ i c, w.conns.get? i = some c ∧ c.fd = a.fd ∧ w.Touches w' i) := by
  cases hStep with
  | accept hReports hCall => exact ⟨h.startAccept hFits hCall, Or.inl ⟨⟨_, _, rfl⟩, grown_startAccept hFits hCall⟩⟩
  | @request fd u conn _ hReports hCall =>
      rcases h.reported hReports with ⟨hNot, -⟩ | ⟨i, c, hc, hFd, rfl, hEven⟩
      · cases hNot
      · obtain ⟨hWired, hTouches⟩ := h.httpDataComing hEven hCall
        exact ⟨hWired, Or.inr ⟨conn, c, hc, hFd, hTouches⟩⟩
  | @writable fd connected conn hReports =>
      rcases h.reported hReports with ⟨hNot, -⟩ | ⟨i, c, hc, hFd, rfl, hOdd⟩
      · cases hNot
      · obtain ⟨hWired, hTouches⟩ := h.proxyConnectWritable conn connected
        exact ⟨hWired, Or.inr ⟨conn, c, hc, hFd, hTouches⟩⟩
  | @response fd u conn _ hReports hCall =>
      rcases h.reported hReports with ⟨hNot, -⟩ | ⟨i, c, hc, hFd, rfl, hOdd⟩
      · cases hNot
      · obtain ⟨hWired, hTouches⟩ := h.proxyDataComing hCall
        exact ⟨hWired, Or.inr ⟨conn, c, hc, hFd, hTouches⟩⟩
  | resend hReports hCall =>
      -- a posted event is not registered with epoll
      rcases h.reported hReports with ⟨hNot, -⟩ | ⟨i, c, -, -, hServes⟩
      · cases hNot
      · exact absurd hServes id

/-- A new worker has the listening socket, and no connection. -/
theorem wired_httpWorkerNew (p : Nat → Nat) (ev : Nat → EventT) (tail : Option Nat) (fds : Nat → Int)
    (handlers : Nat → Handler) (junk : Nat → ConnectionT) (listenFd : Int) (refused : Bool) :
    (httpWorkerNew ⟨Base.ltBaseInit p ev tail, fds, fun _ => none⟩ handlers junk listenFd refused).Wired := by
  let start : Worker :=
    { poller := ⟨Base.ltBaseInit p ev tail, fds, fun _ => none⟩, handlers := handlers, conns := ⟨[], junk⟩
      listenFd := listenFd, sockets := [listenFd], calls := fun _ => 0, taken := fun _ => [], handed := fun _ => [] }
  have hArmed : start.armed = ∅ := Set.eq_empty_of_forall_notMem fun e he => Nat.not_lt_zero e he.1
  have hReports : PollRun.Reports ⟨start.poller, start.armed⟩ :=
    ⟨fun e he => he.1, fun fd x hx => by cases hx⟩
  have hAdds := start.addsEvent_ltIoAdd (.startAccept) id listenFd (lvConn ||| lvFdrd) refused
  have hNone : ∀ i c, start.conns.get? i ≠ some c := fun i c hc => by cases hc
  refine ⟨start.reports_ltIoAdd (.startAccept) id listenFd _ refused hReports, fun e he => ?_,
    fun i c e hc => absurd hc (hNone i c), fun i c _ hc => absurd hc (hNone i c), fun i c hc => absurd hc (hNone i c),
    fun i c hc => absurd hc (hNone i c), fun i j c d hc => absurd hc (hNone i c), rfl,
    List.mem_singleton_self listenFd⟩
  have he : e ∈ (start.ltIoAdd listenFd (lvConn ||| lvFdrd) .startAccept refused).2.armed := he
  rw [hAdds.armed, hArmed, insert_empty_eq, Set.mem_singleton_iff] at he
  subst he
  exact Or.inl ⟨hAdds.handler, hAdds.fds⟩

/-- The pointers are in order in every run. -/
theorem wired_of_run {p : Nat → Nat} {ev : Nat → EventT} {tail : Option Nat} {fds : Nat → Int}
    {handlers : Nat → Handler} {blocks : Nat → ConnectionT} {listenFd : Int} {refused : Bool}
    (hRun : Arrives (Step k junk) Fits
      (httpWorkerNew ⟨Base.ltBaseInit p ev tail, fds, fun _ => none⟩ handlers blocks listenFd refused) w) :
    w.Wired :=
  hRun.all (wired_httpWorkerNew p ev tail fds handlers blocks listenFd refused) fun _ _ _ h hFits hStep =>
    (h.step hFits hStep).1

section Pairs

variable {fd fd' fd'' : Int}

theorem Wired.paired (h : w.Wired) {i : Nat} {c : ConnectionT} (hc : w.conns.get? i = some c) :
    ∃ d, w.conns.get? (partner i) = some d := by
  have hLt := partner_lt (Arena.lt_fresh hc) h.even
  exact Option.ne_none_iff_exists'.mp fun hNone => absurd (Arena.get?_eq_none_iff.mp hNone) (not_le.mpr hLt)

theorem Wired.pairedSockets_iff (h : w.Wired) {i : Nat} {c : ConnectionT} (hc : w.conns.get? i = some c) :
    w.PairedSockets c.fd fd' ↔ ∃ d, w.conns.get? (partner i) = some d ∧ d.fd = fd' := by
  constructor
  · rintro ⟨i', c', j, d, hc', hFd, hPair, hd, rfl⟩
    obtain rfl := h.apart i' i c' c hc' hc hFd
    rw [h.pair i' c' hc', Option.some.injEq] at hPair
    exact ⟨d, hPair ▸ hd, rfl⟩
  · rintro ⟨d, hd, rfl⟩
    exact ⟨i, c, partner i, d, hc, rfl, h.pair i c hc, hd, rfl⟩

/-- Two sockets are each other's. -/
theorem Wired.pairedSockets_symm (h : w.Wired) (hPaired : w.PairedSockets fd fd') :
    w.PairedSockets fd' fd ∧ fd ≠ fd' := by
  obtain ⟨i, c, j, d, hc, rfl, hPair, hd, rfl⟩ := hPaired
  obtain rfl : partner i = j := Option.some.inj ((h.pair i c hc).symm.trans hPair)
  refine ⟨(h.pairedSockets_iff hd).mpr ⟨c, by rwa [partner_partner], rfl⟩, fun hSame => ?_⟩
  exact partner_ne i (h.apart _ _ d c hd hc hSame.symm)

theorem Wired.pairedSockets_unique (h : w.Wired) (hPaired : w.PairedSockets fd fd')
    (hPaired' : w.PairedSockets fd fd'') : fd'' = fd' := by
  obtain ⟨i, c, j, d, hc, rfl, hPair, hd, rfl⟩ := hPaired
  obtain rfl : partner i = j := Option.some.inj ((h.pair i c hc).symm.trans hPair)
  obtain ⟨d', hd', rfl⟩ := (h.pairedSockets_iff hc).mp hPaired'
  rw [hd, Option.some.injEq] at hd'
  rw [hd']

theorem Grown.pairedSockets (h : w.Grown w') (hPaired : w.PairedSockets fd fd') : w'.PairedSockets fd fd' := by
  obtain ⟨i, c, j, d, hc, hFd, hPair, hd, hFd'⟩ := hPaired
  exact ⟨i, c, j, d, h.conns i c hc, hFd, hPair, h.conns j d hd, hFd'⟩

theorem Touches.pairedSockets {m : Nat} (h : w.Touches w' m) (hPaired : w.PairedSockets fd fd') :
    w'.PairedSockets fd fd' := by
  obtain ⟨i, c, j, d, hc, hFd, hPair, hd, hFd'⟩ := hPaired
  obtain ⟨c', hc', hLinks⟩ := h.exists_links hc
  obtain ⟨d', hd', hLinks'⟩ := h.exists_links hd
  exact ⟨i, c', j, d', hc', (congrArg (·.1) hLinks).trans hFd, (congrArg (·.2.2) hLinks).trans hPair, hd',
    (congrArg (·.1) hLinks').trans hFd'⟩

end Pairs

end Run

def willingKernel : Kernel := ⟨fun _ _ w => .wrote w.length, fun _ _ => false⟩

def nullLinks (_ _ _ : Nat) : LtChain := ⟨⟨0, 0⟩, none, 0⟩

def freshWorker : Worker :=
  httpWorkerNew ⟨Base.ltBaseInit (fun _ => 0) (fun _ => {}) none, fun _ => 0, fun _ => none⟩ (fun _ => .startAccept)
    (fun _ => ⟨-1, none, none, 0⟩) 3 false

def firstArrival : Arrival := ⟨.socket 4, some 5, .einprogress, false, false⟩

def oneClient : Worker := ((freshWorker.opened 4).httpInitConnection 4 firstArrival).2

theorem trail_oneClient (k : Kernel) (junk : Nat → Nat → Nat → LtChain) :
    Trail (Step k junk) Fits freshWorker [.accept 3 [firstArrival]] oneClient :=
  .cons ⟨⟨5, by decide, by decide, rfl, by decide, by decide, Or.inl rfl⟩, trivial⟩
    (.accept ⟨_, rfl, rfl⟩ rfl) (.nil oneClient)

theorem arrives_oneClient (k : Kernel) (junk : Nat → Nat → Nat → LtChain) :
    Arrives (Step k junk) Fits freshWorker oneClient :=
  (trail_oneClient k junk).arrives .start

/-- The client's connection and its pair, as `start_accept` leaves them. -/
theorem oneClient_conns :
    oneClient.conns.get? 0 = some ⟨4, some 1, some 1, lConnectingAccepted⟩ ∧
      oneClient.conns.get? 1 = some ⟨5, some 2, some 0, lProxyConnecting⟩ := ⟨rfl, rfl⟩

end Worker

end Leactor
