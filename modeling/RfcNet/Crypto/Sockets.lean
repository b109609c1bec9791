import RfcNet.Crypto.Pipe
import RfcNet.Lib.Bytewise
import RfcNet.Lib.Simulation

/-!
# Two programs on sockets

Two programs joined by sockets, which are `Sockets`: each send and each receive of a program is a run of the
loop of a socket function, and what is between the two ends are two streams of bytes.  Each `::send` hands over
the beginning of what is left of its buffer, and each `::recv` takes what it likes of the bytes that are there,
one at least.  The connection stays up, so no system call fails.

What comes of the programs is what comes of them byte by byte: a step of `Sockets` is followed by one step or
more of the two programs on top of the layer `bytewise` (`Sockets.simulates`), whose steps commute.
-/

set_option autoImplicit false

namespace RfcNet
namespace Crypto

open Lib

/-- The socket functions of one end. -/
structure Functions where
  /-- `send`. -/
  send : MoveLoop
  /-- `recv`. -/
  recv : MoveLoop

/-- Those of `ClientSocket`. -/
def clientFunctions : Functions := ⟨ClientSocket.send, ClientSocket.recv⟩

/-- Those of `ServerSocket`. -/
def serverFunctions : Functions := ⟨ServerSocket.send, ServerSocket.recv⟩

/-- One end: a program, and the variables of the socket function that it is in. -/
structure Ended {S : Sig} (P : Proc S) (E : Env S) where
  /-- The program. -/
  point : Endpoint P E
  /-- The variables of the loop. -/
  moving : Moving
  /-- The bytes that the loop has been handed by `::recv`. -/
  pulled : Frame

namespace Ended

variable {S : Sig} {P : Proc S} {E : Env S}

/-- The end is not in a socket function. -/
def idle (point : Endpoint P E) : Ended P E := ⟨point, .start, []⟩

/-- The next move on given bytes: the end after it, what it leaves of the bytes, and what it sends.  If the end
is in a loop, the system call moves `n` bytes; a new buffer holds `memory`. -/
def act (f : Functions) (e : Ended P E) (inbox : Frame) (n : ℕ) (memory : ℕ → UInt8) :
    Option (Ended P E × Frame × Frame) :=
  match e.point.code with
  | .sendThen b k =>
    if f.send.goesOn (UInt64.ofNat b.length) e.moving then
      if MayMove b.length e.moving n then
        some ({ e with moving := e.moving.round (Int64.ofNat n) }, inbox,
          (b.drop e.moving.position.toNat).take n)
      else none
    else some (idle { e.point with code := k }, inbox, [])
  | .recvThen len k =>
    if f.recv.goesOn (UInt64.ofNat len) e.moving then
      if MayMove len e.moving n ∧ n ≤ inbox.length then
        some ({ e with
          moving := e.moving.round (Int64.ofNat n)
          pulled := e.pulled ++ inbox.take n }, inbox.drop n, [])
      else none
    else
      let buf := scatter (newBytes memory len) e.moving.moved e.pulled
      some (idle { e.point with code := k buf }, inbox, [])
  | _ => (e.point.act []).map fun m ↦ (idle m.1, inbox, [])

end Ended

/-- Two ends and the bytes between them. -/
structure Sockets {S T : Sig} (P : Proc S) (E : Env S) (Q : Proc T) (F : Env T) where
  /-- The left end. -/
  left : Ended P E
  /-- The right end. -/
  right : Ended Q F
  /-- Bytes on their way to the right. -/
  toRight : Frame
  /-- Bytes on their way to the left. -/
  toLeft : Frame

/-- Who moves, what a system call moves, and what a new buffer holds. -/
structure SocketMove where
  /-- The end that moves. -/
  side : Side
  /-- How many bytes a system call moves. -/
  moved : ℕ := 1
  /-- What a new buffer holds. -/
  memory : ℕ → UInt8 := fun _ ↦ 0

namespace Sockets

variable {S T : Sig} {P : Proc S} {E : Env S} {Q : Proc T} {F : Env T}

/-- Nothing has been moved. -/
def start (left : Endpoint P E) (right : Endpoint Q F) : Sockets P E Q F :=
  ⟨.idle left, .idle right, [], []⟩

/-- One end moves. -/
def step (f g : Functions) (w : Sockets P E Q F) (m : SocketMove) : Option (Sockets P E Q F) :=
  match m.side with
  | .left => (w.left.act f w.toLeft m.moved m.memory).map fun r ↦
      { w with left := r.1, toLeft := r.2.1, toRight := w.toRight ++ r.2.2 }
  | .right => (w.right.act g w.toRight m.moved m.memory).map fun r ↦
      { w with right := r.1, toRight := r.2.1, toLeft := w.toLeft ++ r.2.2 }

end Sockets

/-! ## Byte by byte -/

namespace Ended

variable {S : Sig} {P : Proc S} {E : Env S}

/-- A program on top of the layer on which every byte is a frame. -/
@[reducible] def Bytewise (P : Proc S) : Proc (S.sum leaveSig) := P.over fun _ : Unit ↦ bytewise

/-- What is left of it. -/
def slow (p : P.Code) : (Bytewise P).Code := P.on (fun _ : Unit ↦ bytewise) () p

/-- The end is where the endpoint `e'` is, whose program moves byte by byte. -/
inductive Spelt : Ended P E → Endpoint (Bytewise P) (E.sum leaveEnv) → Prop
  /-- It has sent `i` bytes of its buffer. -/
  | sending {b : Frame} {k : P.Code} {s : E.State} {log : List (S.sum leaveSig).Call} {i : ℕ}
      (hi : i ≤ b.length) : Spelt ⟨⟨.sendThen b k, s, Sig.upper log⟩, plain i, []⟩
        ⟨(sendEach (b.drop i)).inr S >>= fun _ ↦ slow k, (s, ()), log⟩
  /-- It has received the bytes `got` of `got.length + n`. -/
  | receiving {k : Frame → P.Code} {s : E.State} {log : List (S.sum leaveSig).Call} {got : Frame} {n : ℕ} :
      Spelt ⟨⟨.recvThen (got.length + n) k, s, Sig.upper log⟩, plain got.length, got⟩
        ⟨(recvEach got n).inr S >>= fun f ↦ slow (k f), (s, ()), log⟩
  /-- It is not in a loop. -/
  | idle {p : P.Code} {s : E.State} {log : List (S.sum leaveSig).Call} (hsend : ∀ b k, p ≠ .sendThen b k)
      (hrecv : ∀ n k, p ≠ .recvThen n k) :
      Spelt (.idle ⟨p, s, Sig.upper log⟩) ⟨slow p, (s, ()), log⟩

/-- An end that has entered no loop. -/
theorem spelt_idle (p : P.Code) (s : E.State) (log : List (S.sum leaveSig).Call) :
    Spelt (.idle ⟨p, s, Sig.upper log⟩) ⟨slow p, (s, ()), log⟩ := by
  match p with
  | .sendThen b k =>
    have h : Spelt (⟨⟨.sendThen b k, s, Sig.upper log⟩, plain 0, []⟩ : Ended P E)
        ⟨(sendEach (b.drop 0)).inr S >>= fun _ ↦ slow k, (s, ()), log⟩ := .sending (Nat.zero_le b.length)
    rw [plain_zero, List.drop_zero] at h
    rw [slow, Proc.on_send]
    exact h
  | .recvThen n k =>
    have h : Spelt (⟨⟨.recvThen (([] : Frame).length + n) k, s, Sig.upper log⟩, plain ([] : Frame).length, []⟩ :
        Ended P E) ⟨(recvEach [] n).inr S >>= fun f ↦ slow (k f), (s, ()), log⟩ := .receiving
    rw [List.length_nil, Nat.zero_add, plain_zero] at h
    rw [slow, Proc.on_recv]
    exact h
  | .done x => exact .idle nofun nofun
  | .raise e => exact .idle nofun nofun
  | .callThen op k => exact .idle nofun nofun

section
variable {f : Functions} {e e₁ : Ended P E} {e' : Endpoint (Bytewise P) (E.sum leaveEnv)}
  {inbox rest out : Frame} {n : ℕ} {memory : ℕ → UInt8}

/-- An end keeps to buffers that a `size_t` can count. -/
def Counted (e : Ended P E) : Prop := e.point.code.Within (2 ^ 64)

/-- The piece of a buffer that `::send` takes next. -/
theorem singly_take_ne_nil {b : Frame} (hn : 1 ≤ n) (hlen : n ≤ b.length) : singly (b.take n) ≠ [] := by
  rw [singly, Ne, List.map_eq_nil_iff, List.take_eq_nil_iff]
  rintro (h | rfl)
  · omega
  · rw [List.length_nil] at hlen
    omega

/-- **A move is followed byte by byte**, with one step at least. -/
theorem Spelt.act {σ ε : Type} {step : σ → ε → Option σ}
    {sys : Endpoint (Bytewise P) (E.sum leaveEnv) → List Frame → List Frame → σ}
    (hstep : ∀ (e e' : Endpoint (Bytewise P) (E.sum leaveEnv)) (inbox rest out sent : List Frame),
      e.act inbox = some (e', rest, out) → ∃ a, step (sys e inbox sent) a = some (sys e' rest (sent ++ out)))
    (hlen : e.Counted) (h : Spelt e e') (hact : e.act f inbox n memory = some (e₁, rest, out))
    (sent : List Frame) : ∃ e₁', Spelt e₁ e₁' ∧
      Advances step (sys e' (singly inbox) sent) (sys e₁' (singly rest) (sent ++ singly out)) := by
  cases h with
  | @sending b k s log i hi =>
    have hb : b.length < 2 ^ 64 := hlen.1
    rw [Ended.act] at hact
    dsimp only at hact
    split at hact
    · rename_i hgo
      have hlt := (goesOn_plain hi hb).mp hgo
      split at hact
      · rename_i hmay
        rw [MayMove, toNat_plain (by omega)] at hmay
        obtain ⟨rfl, rfl, rfl⟩ := by simpa only [Option.some.injEq, Prod.mk.injEq] using hact
        rw [round_plain hmay.1 hmay.2.2 (by omega), toNat_plain (by omega)]
        refine ⟨_, .sending (by omega), ?_⟩
        have hruns := runs_sendEach ((b.drop i).take n) (b.drop (i + n))
        rw [← List.drop_drop, List.take_append_drop, List.drop_drop] at hruns
        have hmoves := singly_take_ne_nil (b := b.drop i) hmay.1 (by rw [List.length_drop]; omega)
        have hadv := Endpoint.advances_of_runs hstep ((hruns.inr S).bind fun _ ↦ slow k)
          (Env.sum_answers_below (E := E) (F := leaveEnv) (s := s) (m := ()) rfl) (.inr (.inr hmoves)) log
          (singly inbox) sent
        rwa [List.map_nil, List.append_nil] at hadv
      · cases hact
    · rename_i hstop
      have hfull : i = b.length := by
        have hge := mt (goesOn_plain hi hb).mpr hstop
        omega
      obtain ⟨rfl, rfl, rfl⟩ := by simpa only [Option.some.injEq, Prod.mk.injEq] using hact
      have hadv := Endpoint.advances_of_runs hstep ((exec_sendEach_nil.inr S).bind fun _ ↦ slow k)
        (Env.sum_answers_below (E := E) (F := leaveEnv) (s := s) (m := ()) ⟨(), rfl, rfl⟩)
        (.inr (.inl (List.cons_ne_nil _ _))) log (singly inbox) sent
      rw [hfull, List.drop_length]
      refine ⟨_, ?_, hadv⟩
      have hidle := spelt_idle (E := E) k s (log ++ [⟨(), ()⟩].map Sig.below)
      rwa [Sig.upper_append, Sig.upper_below, List.append_nil] at hidle
  | @receiving k s log got more =>
    have hcount : got.length + more < 2 ^ 64 := hlen.1
    rw [Ended.act] at hact
    dsimp only at hact
    split at hact
    · rename_i hgo
      have hlt := (goesOn_plain (Nat.le_add_right _ _) hcount).mp hgo
      split at hact
      · rename_i hmay
        obtain ⟨hmay, hthere⟩ := hmay
        rw [MayMove, toNat_plain (by omega)] at hmay
        obtain ⟨rfl, rfl, rfl⟩ := by simpa only [Option.some.injEq, Prod.mk.injEq] using hact
        rw [round_plain hmay.1 hmay.2.2 (by omega)]
        obtain ⟨less, rfl⟩ := Nat.exists_eq_add_of_le (show n ≤ more by omega)
        have htake : (inbox.take n).length = n := List.length_take_of_le hthere
        have hgot : got.length + n = (got ++ inbox.take n).length := by rw [List.length_append, htake]
        refine ⟨⟨(recvEach (got ++ inbox.take n) less).inr S >>= fun f ↦ slow (k f), (s, ()), log⟩, ?_, ?_⟩
        · rw [← Nat.add_assoc, hgot]
          exact .receiving
        · have hruns := runs_recvEach got (inbox.take n) less
          rw [htake] at hruns
          have hadv := Endpoint.advances_of_runs hstep ((hruns.inr S).bind fun f ↦ slow (k f))
            (Env.sum_answers_below (E := E) (F := leaveEnv) (s := s) (m := ()) rfl)
            (.inl (singly_take_ne_nil hmay.1 hthere)) log (singly (inbox.drop n)) sent
          rwa [← singly_append, List.take_append_drop, List.map_nil, List.append_nil] at hadv
      · cases hact
    · rename_i hstop
      obtain rfl : more = 0 := by
        have hge := mt (goesOn_plain (Nat.le_add_right _ _) hcount).mpr hstop
        omega
      obtain ⟨rfl, rfl, rfl⟩ := by simpa only [Option.some.injEq, Prod.mk.injEq] using hact
      have hadv := Endpoint.advances_of_runs hstep
        (((exec_recvEach_done got).inr S).bind fun f ↦ slow (k f))
        (Env.sum_answers_below (E := E) (F := leaveEnv) (s := s) (m := ()) ⟨(), rfl, rfl⟩)
        (.inr (.inl (List.cons_ne_nil _ _))) log (singly inbox) sent
      refine ⟨_, ?_, hadv⟩
      have hidle := spelt_idle (E := E) (k got) s (log ++ [⟨(), ()⟩].map Sig.below)
      have hbuf : scatter (newBytes memory (got.length + 0)) (plain got.length).moved got = got :=
        scatter_plain memory rfl
      rw [Sig.upper_append, Sig.upper_below, List.append_nil] at hidle
      rw [hbuf]
      exact hidle
  | @idle p s log hsend hrecv =>
    cases p with
    | sendThen b k => exact absurd rfl (hsend b k)
    | recvThen n k => exact absurd rfl (hrecv n k)
    | raise _ => cases hact
    | done x =>
      cases x with
      | inr a => cases hact
      | inl v =>
        obtain ⟨rfl, rfl, rfl⟩ := by
          simpa only [Ended.act, Ended.idle, Endpoint.act, Option.map_some, Option.some.injEq,
            Prod.mk.injEq] using hact
        obtain ⟨a, ha⟩ := hstep _ _ _ _ _ sent
          (Endpoint.act_loop (P := Bytewise P) (E := E.sum leaveEnv) ((), v) (s, ()) log (singly inbox))
        exact ⟨_, spelt_idle (P.body v) s log, .of_step ha⟩
    | callThen op k =>
      cases hanswer : E.answer s op with
      | none => simp [Ended.act, Ended.idle, Endpoint.act, hanswer] at hact
      | some r =>
        obtain ⟨rfl, rfl, rfl⟩ := by
          simpa only [Ended.act, Ended.idle, Endpoint.act, hanswer, Option.map_some, Option.some.injEq,
            Prod.mk.injEq] using hact
        obtain ⟨a, ha⟩ := hstep _ _ _ _ _ sent
          (Endpoint.act_call (P := Bytewise P) (E := E.sum leaveEnv)
            (Env.sum_answer_above (F := leaveEnv) (m := ()) hanswer) (fun r ↦ slow (k r)) log (singly inbox))
        refine ⟨_, ?_, .of_step ha⟩
        have hidle := spelt_idle (E := E) (k r.1) r.2 (log ++ [⟨.inl op, r.1⟩])
        rwa [Sig.upper_append, Sig.upper_above] at hidle

/-- What is left of a program keeps to the bound that the program keeps to. -/
theorem Counted.act (hP : ∀ v, (P.body v).Within (2 ^ 64)) (hlen : e.Counted)
    (hact : e.act f inbox n memory = some (e₁, rest, out)) : e₁.Counted := by
  obtain ⟨⟨code, s, log⟩, moving, pulled⟩ := e
  rw [Ended.act] at hact
  dsimp only at hact
  split at hact
  · split at hact
    · split at hact
      · obtain ⟨rfl, rfl, rfl⟩ := by simpa only [Option.some.injEq, Prod.mk.injEq] using hact
        exact hlen
      · cases hact
    · obtain ⟨rfl, rfl, rfl⟩ := by simpa only [Option.some.injEq, Prod.mk.injEq] using hact
      exact hlen.2
  · split at hact
    · split at hact
      · obtain ⟨rfl, rfl, rfl⟩ := by simpa only [Option.some.injEq, Prod.mk.injEq] using hact
        exact hlen
      · cases hact
    · obtain ⟨rfl, rfl, rfl⟩ := by simpa only [Option.some.injEq, Prod.mk.injEq] using hact
      exact hlen.2 _
  · obtain ⟨⟨e', rest', out'⟩, hmove, heq⟩ := Option.map_eq_some_iff.mp hact
    obtain ⟨rfl, rfl, rfl⟩ := by simpa only [Prod.mk.injEq] using heq
    cases Endpoint.act_eq_some_iff.mp hmove with
    | loop => exact hP _
    | send => exact hlen.2
    | call => exact hlen _

/-- **An end that cannot move** cannot move byte by byte either. -/
theorem Spelt.stuck (hlen : e.Counted) (h : Spelt e e') (hst : ∀ n memory, e.act f inbox n memory = none) :
    e'.act (singly inbox) = none := by
  have hst := hst 1 fun _ ↦ 0
  cases h with
  | @sending b k s log i hi =>
    have hb : b.length < 2 ^ 64 := hlen.1
    rw [Ended.act] at hst
    dsimp only at hst
    split at hst
    · rename_i hgo
      have hlt := (goesOn_plain hi hb).mp hgo
      rw [if_pos] at hst
      · cases hst
      · rw [MayMove, toNat_plain (by omega), maxRwCount]
        omega
    · cases hst
  | @receiving k s log got more =>
    have hcount : got.length + more < 2 ^ 64 := hlen.1
    rw [Ended.act] at hst
    dsimp only at hst
    split at hst
    · rename_i hgo
      have hlt := (goesOn_plain (Nat.le_add_right _ _) hcount).mp hgo
      obtain ⟨more, rfl⟩ := Nat.exists_eq_add_one.mpr (show 0 < more by omega)
      cases inbox with
      | nil => rfl
      | cons x xs =>
        rw [if_pos] at hst
        · cases hst
        · rw [MayMove, toNat_plain (by omega), maxRwCount, List.length_cons]
          omega
    · cases hst
  | @idle p s log hsend hrecv =>
    cases p with
    | sendThen b k => exact absurd rfl (hsend b k)
    | recvThen n k => exact absurd rfl (hrecv n k)
    | raise _ => rfl
    | done x =>
      cases x with
      | inr a => rfl
      | inl v => cases hst
    | callThen op k =>
      cases hanswer : E.answer s op with
      | none => simp [slow, Proc.on, Prog.over, Endpoint.act, hanswer]
      | some r => simp [Ended.act, Ended.idle, Endpoint.act, hanswer] at hst

end

end Ended

namespace Sockets

variable {S T : Sig} {P : Proc S} {E : Env S} {Q : Proc T} {F : Env T} {f g : Functions}

/-- The two ends are where the endpoints of `c` are, whose programs move byte by byte. -/
structure Spelt (w : Sockets P E Q F)
    (c : Duet (Ended.Bytewise P) (E.sum leaveEnv) (Ended.Bytewise Q) (F.sum leaveEnv)) : Prop where
  left : w.left.Spelt c.left
  right : w.right.Spelt c.right
  /-- They keep to buffers that can be counted. -/
  counted : w.left.Counted ∧ w.right.Counted
  toRight : c.toRight = singly w.toRight
  toLeft : c.toLeft = singly w.toLeft

/-- **Two programs on sockets are simulated byte by byte.** -/
theorem simulates (hP : ∀ v, (P.body v).Within (2 ^ 64)) (hQ : ∀ v, (Q.body v).Within (2 ^ 64)) :
    Simulates (step (P := P) (E := E) (Q := Q) (F := F) f g) Duet.step Spelt where
  follows {w w' c m} h hstep := by
    obtain ⟨left', right', toRight', toLeft'⟩ := c
    obtain ⟨hleft, hright, ⟨hcount, hcount'⟩, htoRight, htoLeft⟩ := h
    dsimp only at hleft hright htoRight htoLeft
    subst htoRight htoLeft
    obtain ⟨side, n, memory⟩ := m
    cases side with
    | left =>
      obtain ⟨⟨e, rest, out⟩, hact, rfl⟩ := Option.map_eq_some_iff.mp hstep
      obtain ⟨e', hspelt, hadv⟩ := hleft.act (Duet.left_step right' (singly w.toRight)) hcount hact []
      rw [List.append_nil, List.nil_append, ← singly_append] at hadv
      exact ⟨_, ⟨hspelt, hright, ⟨hcount.act hP hact, hcount'⟩, rfl, rfl⟩, hadv⟩
    | right =>
      obtain ⟨⟨e, rest, out⟩, hact, rfl⟩ := Option.map_eq_some_iff.mp hstep
      obtain ⟨e', hspelt, hadv⟩ := hright.act (Duet.right_step left' (singly w.toLeft)) hcount' hact []
      rw [List.append_nil, List.nil_append, ← singly_append] at hadv
      exact ⟨_, ⟨hleft, hspelt, ⟨hcount, hcount'.act hQ hact⟩, rfl, rfl⟩, hadv⟩
  stuck {w c} h hst := by
    obtain ⟨hleft, hright, ⟨hcount, hcount'⟩, htoRight, htoLeft⟩ := h
    refine Duet.stuck_of_act ?_ ?_
    · rw [htoLeft]
      exact hleft.stuck hcount fun n memory ↦ Option.map_eq_none_iff.mp (hst ⟨.left, n, memory⟩)
    · rw [htoRight]
      exact hright.stuck hcount' fun n memory ↦ Option.map_eq_none_iff.mp (hst ⟨.right, n, memory⟩)

/-! ## What comes of two programs -/

end Sockets

namespace Ended

variable {S : Sig} {P : Proc S} {E : Env S} {e : Ended P E} {e' : Endpoint (Bytewise P) (E.sum leaveEnv)}

/-- No socket function has had to try again. -/
theorem Spelt.retries (h : Spelt e e') : e.moving.retries = 0 := by
  cases h <;> rfl

theorem Spelt.env (h : Spelt e e') : e'.env.1 = e.point.env := by
  cases h <;> rfl

theorem Spelt.log (h : Spelt e e') : Sig.upper e'.log = e.point.log := by
  cases h <;> rfl

theorem Spelt.result (h : Spelt e e') : e'.result = e.point.result := by
  cases h with
  | @sending b k s log i hi => cases b.drop i <;> rfl
  | @receiving k s log got n => cases n <;> rfl
  | @idle p s log hsend hrecv =>
    cases p with
    | sendThen b k => exact absurd rfl (hsend b k)
    | recvThen n k => exact absurd rfl (hrecv n k)
    | done x => cases x <;> rfl
    | raise _ => rfl
    | callThen _ _ => rfl

/-- An exception of the end is one of the endpoint. -/
theorem Spelt.not_raised (h : Spelt e e') {inbox : List Frame} (hin : e'.InStep inbox) (err : S.Err) :
    e.point.code ≠ .raise err := by
  intro hraise
  cases h with
  | sending => cases hraise
  | receiving => cases hraise
  | idle =>
    subst hraise
    exact hin

end Ended

namespace Sockets

variable {S T : Sig} {P : Proc S} {E : Env S} {Q : Proc T} {F : Env T} {f g : Functions}

/-- One end on its way to where `e` is: it has made some of the calls of `e`, its program has not been left by
an exception, and its socket functions have not failed. -/
structure Approaches (x : Ended P E) (e : Endpoint P E) : Prop where
  calls : x.point.log <+: e.log
  noException : ∀ err, x.point.code ≠ .raise err
  noRetry : x.moving.retries = 0

/-- One end that has made the calls of `e`, and has returned what `e` has returned. -/
structure Arrived (x : Ended P E) (e : Endpoint P E) : Prop where
  env : x.point.env = e.env
  calls : x.point.log = e.log
  result : x.point.result = e.result

/-- **What comes of two programs on sockets**, whatever the pieces are and in which order the ends move: every
run ends, it ends where `d` is, with nothing between the ends but what is there in `d`, and until then the ends
are on the way to it. -/
def ComesTo (f g : Functions) (w : Sockets P E Q F) (d : Duet P E Q F) : Prop :=
  ∃ bound, ∀ es u, run (step f g) w es = some u → es.length ≤ bound ∧
    (Approaches u.left d.left ∧ Approaches u.right d.right) ∧
    (Stuck (step f g) u → Arrived u.left d.left ∧ Arrived u.right d.right ∧
      u.toRight = d.toRight.flatten ∧ u.toLeft = d.toLeft.flatten)

theorem flatMap_singly (l : List Frame) : l.flatMap singly = singly l.flatten := by
  induction l with
  | nil => rfl
  | cons x l ih => rw [List.flatMap_cons, ih, List.flatten_cons, singly_append]

theorem singly_injective {x y : Frame} (h : singly x = singly y) : x = y :=
  List.map_injective_iff.mpr (fun _ _ heq ↦ (List.cons.inj heq).1) h

/-- What an endpoint has called from above only grows. -/
theorem upper_prefix {S' T' : Sig} {l l' : List (S'.sum T').Call} (h : l <+: l') :
    Sig.upper l <+: Sig.upper l' := by
  obtain ⟨more, rfl⟩ := h
  rw [Sig.upper_append]
  exact List.prefix_append _ _

/-- **Two programs on sockets do what they do with frames**: if they come to rest with frames, they come to the
same on sockets. -/
theorem comesTo (hP : ∀ v, (P.body v).Within (2 ^ 64)) (hQ : ∀ v, (Q.body v).Within (2 ^ 64))
    {p : P.Code} {q : Q.Code} (hp : p.Within (2 ^ 64)) (hq : q.Within (2 ^ 64)) {s : E.State} {t : F.State}
    {d : Duet P E Q F} (hreach : Reaches Duet.step (⟨⟨p, s, []⟩, ⟨q, t, []⟩, [], []⟩ : Duet P E Q F) d)
    (hrest : d.Quiet) : ComesTo f g (start ⟨p, s, []⟩ ⟨q, t, []⟩) d := by
  -- Byte by byte, the two programs come to rest as well.
  have hover : Duet.Over singly () () (⟨⟨p, s, []⟩, ⟨q, t, []⟩, [], []⟩ : Duet P E Q F)
      (⟨⟨Ended.slow p, (s, ()), []⟩, ⟨Ended.slow q, (t, ()), []⟩, [], []⟩ :
        Duet (Ended.Bytewise P) (E.sum leaveEnv) (Ended.Bytewise Q) (F.sum leaveEnv)) :=
    ⟨⟨rfl, rfl, rfl⟩, ⟨rfl, rfl, rfl⟩, rfl, rfl⟩
  obtain ⟨z, hz, hquiet, hshows⟩ := Duet.Over.settles (L := fun _ : Unit ↦ bytewise)
    (M := fun _ : Unit ↦ bytewise) bytewise_carries bytewise_carries hover
    (fun _ _ ↦ ⟨fun _ _ ↦ trivial, fun _ _ ↦ trivial⟩) hreach hrest
  have hstart : Spelt (start ⟨p, s, []⟩ ⟨q, t, []⟩ : Sockets P E Q F)
      ⟨⟨Ended.slow p, (s, ()), []⟩, ⟨Ended.slow q, (t, ()), []⟩, [], []⟩ :=
    ⟨Ended.spelt_idle p s [], Ended.spelt_idle q t [], ⟨hp, hq⟩, rfl, rfl⟩
  obtain ⟨bound, hbound⟩ := (simulates (f := f) (g := g) hP hQ).ends hstart
    (Duet.diamond.endsIn hz hquiet.atRest.stuck)
  refine ⟨bound, fun es u hrun ↦ ?_⟩
  obtain ⟨hlen, v, hspelt, hv, hend⟩ := hbound es u hrun
  have hinStep := (Duet.settled_all hv hquiet.atRest (.refl v)).1
  have hlog := Duet.log_prefix hv
  refine ⟨hlen, ⟨⟨?_, hspelt.left.not_raised hinStep.1, hspelt.left.retries⟩, ⟨?_,
    hspelt.right.not_raised hinStep.2, hspelt.right.retries⟩⟩, fun hst ↦ ?_⟩
  · rw [← hspelt.left.log, ← hshows.left.log]
    exact upper_prefix hlog.1
  · rw [← hspelt.right.log, ← hshows.right.log]
    exact upper_prefix hlog.2
  · obtain rfl := hend hst
    refine ⟨⟨?_, ?_, ?_⟩, ⟨?_, ?_, ?_⟩, ?_, ?_⟩
    · rw [← hspelt.left.env, hshows.left.env]
    · rw [← hspelt.left.log, hshows.left.log]
    · rw [← hspelt.left.result, hshows.left.result]
    · rw [← hspelt.right.env, hshows.right.env]
    · rw [← hspelt.right.log, hshows.right.log]
    · rw [← hspelt.right.result, hshows.right.result]
    · exact singly_injective (by rw [← hspelt.toRight, hshows.toRight, flatMap_singly])
    · exact singly_injective (by rw [← hspelt.toLeft, hshows.toLeft, flatMap_singly])

end Sockets

end Crypto
end RfcNet
