import RfcNet.Closing

/-!
# Phantom commands

A session that has not got everything it asks for before its client closes has a receive that fails,
and from there it can always be brought to serve a request that nobody has made (`Doomed`): the
buffers of failed receives can hold a whole hello, and then the command LIST.  The proof goes
through the frames that the client has sent in the way in which the handler does, by the recursion
of `requests`.

Together with `noPhantom_of_concluded` this makes `noPhantom_iff_concluded`.
-/

set_option autoImplicit false

namespace RfcNet

open Lib

namespace Line

/-! ## Sessions that have to wait -/

/-- The session has served a request after a receive had failed. -/
def Phantom (l : Line) : Prop :=
  ∃ before after c, l.trace = before ++ .failed :: after ∧ .call c ∈ after ∧ Serves c.1

/-- From this code and inbox, whatever came before, the session can get to serve a request after a
receive has failed. -/
def Doomed (code : handler.Code) (inbox : List Frame) : Prop :=
  ∀ trace, ∃ l, Reaches step ⟨code, inbox, trace⟩ l ∧ l.Phantom

/-- From this code, once a receive has failed, the session can get to serve a request. -/
def Asks (code : handler.Code) : Prop :=
  ∀ trace, .failed ∈ trace → ∃ l, Reaches step ⟨code, [], trace⟩ l ∧ l.Phantom

section
variable {α : Type} {p : Prog serverSig α} {g : α → handler.Code} {ins outs inbox : List Frame}
  {calls : List serverSig.Call} {a : α} {trace : List Act} {s : Session} {code : handler.Code}
  {n : ℕ} {f : Frame}

instance : (op : ServerOp) → Inhabited op.Res
  | .index (.addClient _ _) | .index (.addRfc _ _ _) => inferInstanceAs (Inhabited Bool)
  | .index (.eraseHolders _ _) | .index (.eraseClient _ _) | .close => inferInstanceAs (Inhabited Unit)
  | .index (.findRfcs _) => inferInstanceAs (Inhabited (List Client))
  | .index .allRfcs => inferInstanceAs (Inhabited (List RFCHolder))
  | .newBytes _ => ⟨fun _ ↦ 0⟩

/-- A move on which nothing depends. -/
def anyTurn : Turn := ⟨[], fun _ ↦ default⟩

/-- A move in which a call is answered. -/
def answering (op : ServerOp) (r : op.Res) : Turn := ⟨[], Function.update (fun _ ↦ default) op r⟩

theorem step_loop : step ⟨.done (.inl s), inbox, trace⟩ anyTurn = some ⟨messageLoop s, inbox, trace⟩ :=
  rfl

theorem step_send {k : handler.Code} :
    step ⟨.sendThen f k, inbox, trace⟩ anyTurn = some ⟨k, inbox, trace⟩ := rfl

theorem step_recv {k : Frame → handler.Code} (hlen : f.length = n) :
    step ⟨.recvThen n k, f :: inbox, trace⟩ anyTurn = some ⟨k f, inbox, trace⟩ := by
  simp [step, hlen]

theorem step_call {op : ServerOp} {k : op.Res → handler.Code} (r : op.Res) :
    step ⟨.callThen op k, inbox, trace⟩ (answering op r) =
      some ⟨k r, inbox, trace ++ [.call ⟨op, r⟩]⟩ := by
  simp [step, answering]

/-- A receive fails if the next frame, if there is one, has another length. -/
theorem step_fail {k : Frame → handler.Code} (hbad : ∀ f ∈ inbox.head?, f.length ≠ n) {left : Frame}
    (hlen : left.length = n) :
    step ⟨.recvThen n k, inbox, trace⟩ ⟨left, fun _ ↦ default⟩ =
      some ⟨k left, [], trace ++ [.failed]⟩ := by
  cases inbox with
  | nil => simp [step, fail, hlen]
  | cons f inbox =>
    have hf : f.length ≠ n := hbad f rfl
    simp [step, fail, hlen, hf]

/-- The session can do what its code does, if it receives what is needed. -/
theorem reaches_of_runs {q : handler.Code} (h : code.Runs ins calls outs q) (trace : List Act) :
    Reaches step ⟨code, ins ++ inbox, trace⟩ ⟨q, inbox, trace ++ calls.map .call⟩ := by
  induction h generalizing trace with
  | refl q =>
    rw [List.map_nil, List.append_nil]
    exact .refl _
  | send _ ih => exact .head step_send (ih trace)
  | recv hlen _ ih => exact .head (step_recv hlen) (ih trace)
  | @call op r _ _ _ _ _ _ ih =>
    refine .head (step_call r) ?_
    rw [List.map_cons, List.append_cons trace _ (List.map _ _)]
    exact ih _

/-- It can do so, too, if it receives nothing any more and finds the right bytes in its buffers. -/
theorem reaches_of_runs_failing {q : handler.Code} (h : code.Runs ins calls outs q)
    (trace : List Act) : ∃ more, Reaches step ⟨code, [], trace⟩ ⟨q, [], trace ++ more⟩ ∧
      ∀ c ∈ calls, .call c ∈ more := by
  induction h generalizing trace with
  | refl q => exact ⟨[], by rw [List.append_nil]; exact .refl _, by simp⟩
  | send _ ih =>
    obtain ⟨more, hmore, hcalls⟩ := ih trace
    exact ⟨more, .head step_send hmore, hcalls⟩
  | recv hlen _ ih =>
    obtain ⟨more, hmore, hcalls⟩ := ih (trace ++ [.failed])
    refine ⟨.failed :: more, .head (step_fail (by simp) hlen) ?_, fun c hc ↦ ?_⟩
    · rw [List.append_cons trace _ more]
      exact hmore
    · exact List.mem_cons_of_mem _ (hcalls c hc)
  | @call op r _ _ _ _ _ _ ih =>
    obtain ⟨more, hmore, hcalls⟩ := ih (trace ++ [.call ⟨op, r⟩])
    refine ⟨.call ⟨op, r⟩ :: more, .head (step_call r) ?_, fun c hc ↦ ?_⟩
    · rw [List.append_cons trace _ more]
      exact hmore
    · rcases List.mem_cons.mp hc with rfl | hc
      · exact List.mem_cons_self
      · exact List.mem_cons_of_mem _ (hcalls c hc)

/-! ### Once a receive has failed -/

theorem Phantom.of_trace {c : serverSig.Call} {more : List Act} (hfailed : .failed ∈ trace)
    (hc : .call c ∈ more) (hserves : Serves c.1) : Phantom ⟨code, inbox, trace ++ more⟩ := by
  obtain ⟨before, after, rfl⟩ := List.append_of_mem hfailed
  exact ⟨before, after ++ more, c, by simp, List.mem_append_right _ hc, hserves⟩

/-- An execution in which a request is served. -/
theorem asks_of_serves {c : serverSig.Call} (h : p.Exec ins calls outs a) (hc : c ∈ calls)
    (hserves : Serves c.1) : Asks (p >>= g) := by
  intro trace hfailed
  obtain ⟨more, hmore, hcalls⟩ := reaches_of_runs_failing (Prog.Runs.bind h g) trace
  exact ⟨_, hmore, .of_trace hfailed (hcalls c hc) hserves⟩

/-- An execution after which one is. -/
theorem asks_of_exec (h : p.Exec ins calls outs a) (hg : Asks (g a)) : Asks (p >>= g) := by
  intro trace hfailed
  obtain ⟨more, hmore, -⟩ := reaches_of_runs_failing (Prog.Runs.bind h g) trace
  obtain ⟨l, hl, hphantom⟩ := hg (trace ++ more) (List.mem_append_left _ hfailed)
  exact ⟨l, hmore.trans hl, hphantom⟩

/-- LIST, on an index without associations. -/
theorem exec_listRfcs_nil : ∃ calls outs,
    listRfcs.Exec [] (⟨.index .allRfcs, []⟩ :: calls) outs () := by
  obtain ⟨k, hquery, hreply⟩ := runs_listRfcs
  obtain ⟨f, -, -, hexec⟩ := hreply [] (fun _ ↦ 0) (by simp) (by decide)
  exact ⟨_, _, hquery.trans (.call hexec)⟩

/-- LOOKUP, on such an index. -/
theorem exec_lookupRfc_nil (m : Int32) : ∃ calls outs,
    lookupRfc.Exec [wireInt m] (⟨.index (.findRfcs m), []⟩ :: calls) outs () := by
  obtain ⟨k, hquery, hreply⟩ := runs_lookupRfc m
  obtain ⟨f, -, -, hexec⟩ := hreply [] (fun _ ↦ 0) (by simp) (by decide)
  exact ⟨_, _, hquery.trans (.call hexec)⟩

theorem exec_list_nil (s : Session) : ∃ calls outs,
    (messageLoop s).Exec [wireInt P2SMessage.list.toInt] (⟨.index .allRfcs, []⟩ :: calls) outs
      (.inl { s with message := P2SMessage.list.toInt }) := by
  obtain ⟨calls, outs, hlist⟩ := exec_listRfcs_nil
  rw [← handleMessage_list s.host s.uploadPort] at hlist
  exact ⟨calls, outs, exec_messageLoop (by decide) hlist⟩

/-- **A loop whose receives fail can serve LIST**, since its buffer can hold that command. -/
theorem asks_loop (s : Session) : Asks (.done (.inl s)) := by
  intro trace hfailed
  obtain ⟨calls, outs, hexec⟩ := exec_list_nil s
  obtain ⟨more, hmore, hcalls⟩ := reaches_of_runs_failing hexec trace
  exact ⟨_, .head step_loop hmore, .of_trace hfailed (hcalls _ List.mem_cons_self) trivial⟩

/-! ### Until a receive fails -/

theorem doomed_send {k : handler.Code} (hk : Doomed k inbox) : Doomed (.sendThen f k) inbox := by
  intro trace
  obtain ⟨l, hl, hphantom⟩ := hk trace
  exact ⟨l, .head step_send hl, hphantom⟩

/-- The next frame is received. -/
theorem doomed_recv {k : Frame → handler.Code} (hlen : f.length = n) (hk : Doomed (k f) inbox) :
    Doomed (.recvThen n k) (f :: inbox) := by
  intro trace
  obtain ⟨l, hl, hphantom⟩ := hk trace
  exact ⟨l, .head (step_recv hlen) hl, hphantom⟩

/-- The receive fails, and the buffer holds `f`. -/
theorem doomed_fail {k : Frame → handler.Code} (hbad : ∀ f ∈ inbox.head?, f.length ≠ n)
    (hlen : f.length = n) (hk : Asks (k f)) : Doomed (.recvThen n k) inbox := by
  intro trace
  obtain ⟨l, hl, hphantom⟩ := hk (trace ++ [.failed]) (by simp)
  exact ⟨l, .head (step_fail hbad hlen) hl, hphantom⟩

theorem doomed_loop (h : Doomed (messageLoop s) inbox) : Doomed (.done (.inl s)) inbox := by
  intro trace
  obtain ⟨l, hl, hphantom⟩ := h trace
  exact ⟨l, .head step_loop hl, hphantom⟩

theorem doomed_of_exec (h : p.Exec ins calls outs a) (hg : Doomed (g a) inbox) :
    Doomed (p >>= g) (ins ++ inbox) := by
  intro trace
  obtain ⟨l, hl, hphantom⟩ := hg (trace ++ calls.map .call)
  exact ⟨l, (reaches_of_runs (Prog.Runs.bind h g) trace).trans hl, hphantom⟩

/-! ### At the loop -/

/-- A round of the loop whose first receive fails. -/
theorem doomed_round_fail (hbad : ∀ f ∈ inbox.head?, f.length ≠ sizeofInt) :
    Doomed (.done (.inl s)) inbox := by
  obtain ⟨calls, outs, hexec⟩ := exec_list_nil s
  rw [messageLoop, recvInt_eq] at hexec
  obtain ⟨hlen, hexec⟩ := hexec.of_recv_bind
  refine doomed_loop (doomed_fail hbad hlen ?_)
  have hasks := asks_of_serves (g := .done) hexec List.mem_cons_self trivial
  rwa [Prog.bind_done] at hasks

/-- A whole round. -/
theorem doomed_round (hlen : f.length = sizeofInt)
    (hmessage : unwireInt f ≠ P2SMessage.disconnect.toInt)
    (h : (handleMessage s.host s.uploadPort (unwireInt f)).Exec ins calls outs ())
    (hnext : ∀ s, Doomed (.done (.inl s)) inbox) : Doomed (.done (.inl s)) (f :: (ins ++ inbox)) := by
  have hexec := exec_messageLoop hmessage h
  rw [wireInt_unwireInt hlen] at hexec
  have hround := doomed_of_exec (g := .done) hexec (hnext _)
  rw [Prog.bind_done] at hround
  exact doomed_loop hround

/-- A request whose number does not come. -/
theorem doomed_number {c : serverSig.Call} {q : Frame → Prog serverSig α}
    (hexec : (Prog.recv n >>= q).Exec (f :: ins) calls outs a) (hc : c ∈ calls)
    (hserves : Serves c.1) (hbad : ∀ f ∈ inbox.head?, f.length ≠ n) :
    Doomed ((Prog.recv n >>= q) >>= g) inbox := by
  obtain ⟨hlen, hexec⟩ := hexec.of_recv_bind
  exact doomed_fail hbad hlen (asks_of_serves hexec hc hserves)

theorem doomed_addRfc {g : Unit → handler.Code} (hbad : ∀ f ∈ inbox.head?, f.length ≠ sizeofInt)
    (h : StdString) (p : Int32) : Doomed (addRfc h p >>= g) inbox := by
  have hexec := exec_addRfc h p 0 true fun _ ↦ 0
  rw [addRfc] at hexec ⊢
  exact doomed_number hexec List.mem_cons_self trivial hbad

theorem doomed_lookupRfc {g : Unit → handler.Code}
    (hbad : ∀ f ∈ inbox.head?, f.length ≠ sizeofInt) : Doomed (lookupRfc >>= g) inbox := by
  obtain ⟨calls, outs, hexec⟩ := exec_lookupRfc_nil 0
  rw [lookupRfc] at hexec ⊢
  exact doomed_number hexec List.mem_cons_self trivial hbad

/-- The command of a round is received, and its request is next. -/
theorem doomed_command (hlen : f.length = sizeofInt)
    (h : ∀ g, Doomed (handleMessage s.host s.uploadPort (unwireInt f) >>= g) inbox) :
    Doomed (.done (.inl s)) (f :: inbox) := by
  refine doomed_loop ?_
  rw [messageLoop]
  exact doomed_recv hlen (h _)

/-- **Without the end of its requests before it, a loop is doomed.** -/
theorem doomed_of_requests (hreq : .disconnect ∉ requests inbox) (s : Session) :
    Doomed (.done (.inl s)) inbox := by
  induction inbox using requests.induct generalizing s with
  | case1 => exact doomed_round_fail (by simp)
  | case2 f hlen hm =>
    refine doomed_command hlen fun g ↦ ?_
    rw [P2SMessage.eq_toInt hm, handleMessage_add]
    exact doomed_addRfc (by simp) _ _
  | case3 f hlen hm g rest hg ih =>
    have hexec := exec_addRfc s.host s.uploadPort (unwireInt g) true fun _ ↦ 0
    rw [← handleMessage_add, wireInt_unwireInt hg, ← P2SMessage.eq_toInt hm] at hexec
    rw [requests_of_length hlen, hm] at hreq
    refine doomed_round hlen ?_ hexec (ih (by simpa [hg] using hreq))
    rw [P2SMessage.eq_toInt hm]
    decide
  | case4 f hlen hm g rest hg =>
    refine doomed_command hlen fun k ↦ ?_
    rw [P2SMessage.eq_toInt hm, handleMessage_add]
    exact doomed_addRfc (by simpa using hg) _ _
  | case5 f rest hlen hm ih =>
    obtain ⟨calls, outs, hexec⟩ := exec_listRfcs_nil
    rw [← handleMessage_list s.host s.uploadPort, ← P2SMessage.eq_toInt hm] at hexec
    rw [requests_of_length hlen, hm] at hreq
    refine doomed_round hlen ?_ hexec (ih (by simpa using hreq))
    rw [P2SMessage.eq_toInt hm]
    decide
  | case6 f hlen hm =>
    refine doomed_command hlen fun g ↦ ?_
    rw [P2SMessage.eq_toInt hm, handleMessage_lookup]
    exact doomed_lookupRfc (by simp)
  | case7 f hlen hm g rest hg ih =>
    obtain ⟨calls, outs, hexec⟩ := exec_lookupRfc_nil (unwireInt g)
    rw [← handleMessage_lookup s.host s.uploadPort, wireInt_unwireInt hg,
      ← P2SMessage.eq_toInt hm] at hexec
    rw [requests_of_length hlen, hm] at hreq
    refine doomed_round hlen ?_ hexec (ih (by simpa [hg] using hreq))
    rw [P2SMessage.eq_toInt hm]
    decide
  | case8 f hlen hm g rest hg =>
    refine doomed_command hlen fun k ↦ ?_
    rw [P2SMessage.eq_toInt hm, handleMessage_lookup]
    exact doomed_lookupRfc (by simpa using hg)
  | case9 f rest hlen hm =>
    rw [requests_of_length hlen, hm] at hreq
    simp at hreq
  | case10 f rest hlen hadd hlist hlookup hdisconnect ih =>
    have hexec : (handleMessage s.host s.uploadPort (unwireInt f)).Exec [] [] [] () := by
      rw [handleMessage]
      split
      · exact absurd ‹_› hadd
      · exact absurd ‹_› hlist
      · exact absurd ‹_› hlookup
      · exact .refl _
    have hrest : requests (f :: rest) = .other :: requests rest := by
      rw [requests_of_length hlen]
      split
      · exact absurd ‹_› hadd
      · exact absurd ‹_› hlist
      · exact absurd ‹_› hlookup
      · exact absurd ‹_› hdisconnect
      · rfl
    rw [hrest] at hreq
    refine doomed_round hlen (fun hmessage ↦ hdisconnect ?_) hexec (ih (by simpa using hreq))
    rw [hmessage, P2SMessage.ofInt?_toInt]
  | case11 f rest hlen => exact doomed_round_fail (by simpa using hlen)

/-! ### In the hello -/

/-- After its address the session is registered and enters its loop. -/
theorem exec_register (host : StdString) (port : Int32) :
    (atIndex (.addClient host port) >>= fun _ ↦ allocate sizeofInt >>= fun message ↦
      (pure ⟨host, port, intOfBytes (newBytes message sizeofInt)⟩ : Prog serverSig Session)).Exec []
      [⟨.index (.addClient host port), true⟩, ⟨.newBytes sizeofInt, fun _ ↦ 0⟩] []
      ⟨host, port, intOfBytes (newBytes (fun _ ↦ 0) sizeofInt)⟩ :=
  runs_atIndex (runs_allocate (.refl _))

/-- The frame is the next one, and of the right length, or the receive fails. -/
theorem recv_cases (inbox : List Frame) (n : ℕ) :
    (∃ f rest, inbox = f :: rest ∧ f.length = n) ∨ ∀ f ∈ inbox.head?, f.length ≠ n := by
  cases inbox with
  | nil => exact .inr (by simp)
  | cons f rest =>
    by_cases hlen : f.length = n
    · exact .inl ⟨f, rest, rfl, hlen⟩
    · exact .inr (by simpa using hlen)

theorem doomed_receiveAddress {hostLen : Int32}
    (h : ∀ host port rest, inbox = host :: port :: rest → host.length = sizeT hostLen →
      port.length = sizeofInt → .disconnect ∉ requests rest) :
    Doomed (receiveAddress hostLen >>= fun s ↦ .done (.inl s)) inbox := by
  rw [receiveAddress]
  rcases recv_cases inbox (sizeT hostLen) with ⟨host, rest, rfl, hhost⟩ | hbad
  · refine doomed_recv hhost ?_
    rcases recv_cases rest sizeofInt with ⟨port, rest, rfl, hport⟩ | hbad
    · refine doomed_recv hport ?_
      exact doomed_of_exec (exec_register _ _)
        (doomed_of_requests (h host port rest rfl hhost hport) _)
    · exact doomed_fail hbad (length_wireInt 0) (asks_of_exec (exec_register _ _) (asks_loop _))
  · refine doomed_fail hbad (length_newBytes (fun _ ↦ 0) _) ?_
    exact asks_of_exec (runs_recvInt (x := 0) (exec_register _ _)) (asks_loop _)

theorem doomed_receiveHello (h : ¬ HelloConcluded inbox) :
    Doomed (receiveHello >>= fun s ↦ .done (.inl s)) inbox := by
  rw [receiveHello]
  rcases recv_cases inbox sizeofInt with ⟨hostLen, rest, rfl, hlen⟩ | hbad
  · refine doomed_recv hlen ?_
    have hnonneg : ¬ unwireInt hostLen < 0 := fun hneg ↦ h ⟨hlen, .inl hneg⟩
    show Doomed ((if unwireInt hostLen < 0 then .raise .badAlloc
      else receiveAddress (unwireInt hostLen)) >>= fun s ↦ .done (.inl s)) rest
    rw [if_neg hnonneg]
    refine doomed_receiveAddress fun host port rest hrest hhost hport hreq ↦ h ⟨hlen, .inr ?_⟩
    rw [hrest]
    exact ⟨hhost, hport, hreq⟩
  · have hempty : ([] : Frame).length = sizeT 0 := rfl
    refine doomed_fail hbad (length_wireInt 0) ?_
    show Asks ((if unwireInt (wireInt 0) < 0 then .raise .badAlloc
      else receiveAddress (unwireInt (wireInt 0))) >>= fun s ↦ .done (.inl s))
    rw [unwireInt_wireInt, if_neg (by decide)]
    exact asks_of_exec (exec_receiveAddress hempty 0 true fun _ ↦ 0) (asks_loop _)

theorem doomed_clientHandler {sent : List Frame} (h : ¬ Concluded sent) :
    Doomed clientHandler sent := by
  rw [clientHandler]
  refine doomed_send ?_
  rcases recv_cases sent sizeofInt with ⟨version, rest, rfl, hlen⟩ | hbad
  · refine doomed_recv hlen ?_
    have hversion : unwireInt version = protocolVersion :=
      by_contra fun hother ↦ h ⟨hlen, .inl hother⟩
    show Doomed (if ntohl (htonl protocolVersion) ≠ unwireInt version then .done (.inr false)
      else receiveHello >>= fun s ↦ .done (.inl s)) rest
    rw [ntohl_htonl, if_neg (not_not.mpr hversion.symm)]
    exact doomed_receiveHello fun hhello ↦ h ⟨hlen, .inr hhello⟩
  · have hempty : ([] : Frame).length < 2 ^ 31 := by decide
    refine doomed_fail hbad (length_wireInt protocolVersion) ?_
    show Asks (if ntohl (htonl protocolVersion) ≠ unwireInt (wireInt protocolVersion)
      then .done (.inr false) else receiveHello >>= fun s ↦ .done (.inl s))
    rw [ntohl_htonl, unwireInt_wireInt, if_neg (not_not.mpr rfl)]
    exact asks_of_exec (exec_receiveHello hempty 0 true fun _ ↦ 0) (asks_loop _)

/-- **No phantom commands, exactly**: whatever the calls return and failed receives leave behind,
nothing but what was asked for is registered, no request is served after a failed receive, and the
session then ends with its client removed, if and only if the client has sent everything that the
handler asks for before it closed. -/
theorem noPhantom_iff_concluded (sent : List Frame) :
    (∀ l, Reaches step (start sent) l → l.NoPhantom sent) ↔ Concluded sent := by
  constructor
  · intro h
    by_contra hsent
    obtain ⟨l, hl, before, after, c, htrace, hc, hserves⟩ := doomed_clientHandler hsent []
    exact (h l hl).quiet before after c htrace hc hserves
  · exact fun hsent l hl ↦ noPhantom_of_concluded hsent hl

end

/-! ## The command that comes back -/

/-- A client says hello, adds RFC 5, and closes. -/
def hastyClient : List Frame :=
  [wireInt protocolVersion, wireInt 1, [104], wireInt 1, wireInt P2SMessage.add.toInt, wireInt 5]

/-- Moves in which failed receives leave `left` in their buffers, one after the other. -/
def turns (left : List Frame) : List Turn := left.map fun f ↦ ⟨f, fun _ ↦ default⟩

/-- The session of that client.  The two receives of a command that fail leave the command's memory
as it is: `ADD`, and then `ADD` with its bytes swapped, which is no command.  The third
buffer is new, and holds 9. -/
def phantomRun : List Turn :=
  turns (List.replicate 14 []) ++
    turns [intBytes P2SMessage.add.toInt, [], intBytes (htonl P2SMessage.add.toInt), wireInt 9, []]

private theorem phantomRun_end :
    (run step (start hastyClient) phantomRun).map added = some [5, 9] := by
  decide +kernel

/-- **A phantom command**: the session registers RFC 9 as well. -/
theorem phantom_reachable :
    ∃ l, run step (start hastyClient) phantomRun = some l ∧ ¬ l.NoPhantom hastyClient := by
  obtain ⟨l, hl, hadded⟩ := Option.map_eq_some_iff.mp phantomRun_end
  refine ⟨l, hl, fun h ↦ ?_⟩
  have hprefix := h.added_prefix
  rw [hadded] at hprefix
  exact absurd hprefix (by decide +kernel)

end Line

end RfcNet
