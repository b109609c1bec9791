import RfcNet.Crypto.Tampering
import RfcNet.Transfer

/-!
# The bytes between two encrypted sockets

One end sends messages and the other one receives as many bytes each time.  Between the two is a stream of
bytes.  Each `::send` hands over the beginning of what is left of its buffer, and each `::recv` takes what it
likes of the bytes that are there, one at least, and no more than are asked for.  So there are no frames on the
way, and the two ends cut the stream in different places.

A `Pipe` is such a state, with the loops of the sockets below the encryption.  Whatever the pieces are and in
which order the ends move, each receive gets the bytes of its own frame (`Pipe.Carries`), so that every message
is delivered (`transparent`), and a frame that was changed on the way is rejected.
-/

set_option autoImplicit false

namespace RfcNet
namespace Crypto

open Lib

/-! ## The application -/

/-- One end sends these messages. -/
def sendAll (s : Stream) : List Frame → Prog cryptoSig Unit
  | [] => return ()
  | m :: ms => do
    send s m
    sendAll s ms

/-- The other one receives messages of these lengths, and keeps what `recv` returns. -/
def recvAll (s : Stream) : List ℕ → Prog cryptoSig (List Bool)
  | [] => return []
  | n :: ns => do
    let ok ← recv s n
    let oks ← recvAll s ns
    return ok :: oks

/-! ## The pipe -/

/-- What does not change: the sockets below the encryption, the cipher, and the network. -/
structure Setting where
  /-- The loop that sends. -/
  tx : MoveLoop
  /-- The loop that receives. -/
  rx : MoveLoop
  /-- The cipher. -/
  cipher : Primitives
  /-- The encryptions that are made on the connection, in either direction. -/
  made : List Encryption
  /-- What the network makes of the `i`th byte. -/
  network : ℕ → UInt8 → UInt8

/-- The two ends and the bytes between them. -/
structure Pipe where
  /-- What is left of the code that sends. -/
  left : Prog cryptoSig Unit
  /-- The variables of its loop. -/
  sending : Moving
  /-- How many bytes it has handed over. -/
  pushed : ℕ
  /-- The bytes on their way. -/
  wire : Frame
  /-- What is left of the code that receives. -/
  right : Prog cryptoSig (List Bool)
  /-- The variables of its loop. -/
  receiving : Moving
  /-- The bytes that its loop has been handed. -/
  pulled : Frame
  /-- The calls it has made. -/
  log : List cryptoSig.Call

/-- The most that Linux moves in one `::send` or `::recv`. -/
def maxRwCount : ℕ := 0x7ffff000

/-- A system call on a buffer of `len` bytes may move `n` of them. -/
def MayMove (len : ℕ) (t : Moving) (n : ℕ) : Prop :=
  1 ≤ n ∧ n ≤ len - t.position.toNat ∧ n ≤ maxRwCount

instance (len : ℕ) (t : Moving) (n : ℕ) : Decidable (MayMove len t n) := inferInstanceAs (Decidable (_ ∧ _))

/-- The bytes `xs` are put into these places of a buffer, one after the other. -/
def scatter : Frame → List ℕ → Frame → Frame
  | buf, place :: places, x :: xs => scatter (buf.set place x) places xs
  | buf, _, _ => buf

/-- Who moves. -/
inductive PipeMove
  /-- The sender.  If it is in its loop, `::send` moves `n` bytes. -/
  | left (n : ℕ)
  /-- The receiver.  If it is in its loop, `::recv` moves `n` bytes; a new buffer holds `memory`. -/
  | right (n : ℕ) (memory : ℕ → UInt8)

namespace Pipe

/-- The sender has this to send, and the receiver to receive. -/
def start (left : Prog cryptoSig Unit) (right : Prog cryptoSig (List Bool)) : Pipe :=
  ⟨left, .start, 0, [], right, .start, [], []⟩

/-- The sender moves. -/
def stepLeft (W : Setting) (p : Pipe) (n : ℕ) : Option Pipe :=
  match p.left with
  | .sendThen b k =>
    if W.tx.goesOn (UInt64.ofNat b.length) p.sending then
      if MayMove b.length p.sending n then
        some { p with
          sending := p.sending.round (Int64.ofNat n)
          pushed := p.pushed + n
          wire := p.wire ++ ((b.drop p.sending.position.toNat).take n).mapIdx fun i x ↦
            W.network (p.pushed + i) x }
      else none
    else some { p with left := k, sending := .start }
  | .callThen (.encryptAndAuthenticate s header pt) k =>
    some { p with left := k (W.cipher.encrypt s header pt) }
  | _ => none

/-- The receiver moves.  The loop of a receive is the call `arrives`, and its buffer is read after that. -/
def stepRight (W : Setting) (p : Pipe) (n : ℕ) (memory : ℕ → UInt8) : Option Pipe :=
  match p.right with
  | .callThen (.arrives len) k =>
    if W.rx.goesOn (UInt64.ofNat len) p.receiving then
      if MayMove len p.receiving n ∧ n ≤ p.wire.length then
        some { p with
          receiving := p.receiving.round (Int64.ofNat n)
          pulled := p.pulled ++ p.wire.take n
          wire := p.wire.drop n }
      else none
    else
      let ok := (W.rx.finish true p.receiving).ok
      some { p with right := k ok, log := p.log ++ [⟨.arrives len, ok⟩] }
  | .recvThen len k =>
    some { p with
      right := k (scatter (newBytes memory len) p.receiving.moved p.pulled)
      receiving := .start
      pulled := [] }
  | .callThen (.decryptAndVerify s header ct mac) k =>
    let r := idealDecrypt W.cipher W.made memory s header ct mac
    some { p with right := k r, log := p.log ++ [⟨.decryptAndVerify s header ct mac, r⟩] }
  | _ => none

/-- One move. -/
def step (W : Setting) (p : Pipe) : PipeMove → Option Pipe
  | .left n => p.stepLeft W n
  | .right n memory => p.stepRight W n memory

end Pipe

/-! ## The loops, on pieces of at least one byte -/

section
variable {f : MoveLoop} {len a n : ℕ}

/-- The variables of a loop that has moved `n` bytes without a retry. -/
def plain (n : ℕ) : Moving := ⟨UInt64.ofNat n, 0, List.range n⟩

theorem plain_zero : plain 0 = .start := rfl

theorem toNat_plain (h : a < 2 ^ 64) : (plain a).position.toNat = a :=
  UInt64.toNat_ofNat_of_lt' h

theorem toInt_ofNat_of_le (hn : n ≤ maxRwCount) : (Int64.ofNat n).toInt = n := by
  rw [maxRwCount] at hn
  exact Int64.toInt_ofNat_of_lt (by omega)

/-- A piece brings the loop on by its length. -/
theorem round_plain (hpos : 1 ≤ n) (hn : n ≤ maxRwCount) (hlen : a + n < 2 ^ 64) :
    (plain a).round (Int64.ofNat n) = plain (a + n) := by
  have hr := toInt_ofNat_of_le hn
  rw [maxRwCount] at hn
  have ha : a < 2 ^ 64 := by omega
  have hs : (Int64.ofNat n).toInt32.toInt = n := by
    rw [MoveLoop.toInt_toInt32_of_lt (by omega) (by omega), hr]
  have hadd := toNat_toUInt64_toInt64 (Int64.ofNat n).toInt32
  have hposition : UInt64.ofNat a + (Int64.ofNat n).toInt32.toInt64.toUInt64 = UInt64.ofNat (a + n) := by
    refine UInt64.toNat_inj.mp ?_
    rw [UInt64.toNat_add, UInt64.toNat_ofNat_of_lt' hlen, UInt64.toNat_ofNat_of_lt' ha]
    omega
  have hhit : ¬(Int64.ofNat n).toInt32 < 1 := by
    rw [Int32.lt_iff_toInt_lt, hs]
    exact Int.not_lt.mpr (Int.ofNat_le.mpr hpos)
  rw [Moving.round, plain, plain]
  dsimp only
  rw [hposition, if_neg hhit, hr, UInt64.toNat_ofNat_of_lt' ha, Int.toNat_natCast,
    range_append_range']

theorem goesOn_plain (ha : a ≤ len) (hlen : len < 2 ^ 64) :
    f.goesOn (UInt64.ofNat len) (plain a) = true ↔ a < len := by
  rw [MoveLoop.goesOn, Bool.and_eq_true, decide_eq_true_iff (p := _ < UInt64.ofNat len),
    UInt64.lt_iff_toNat_lt, toNat_plain (by omega), UInt64.toNat_ofNat_of_lt' hlen]
  exact and_iff_right (by simp [plain])

/-- The function returns true. -/
theorem ok_plain : (f.finish true (plain a)).ok = true := by
  rw [MoveLoop.ok_finish]
  exact Nat.zero_ne_add_one 9

/-- Bytes that are put into the first places of a buffer, in order, and fill it. -/
theorem scatter_range' {buf xs : Frame} (hn : xs.length = n) (hlen : a + n ≤ buf.length) :
    scatter buf (List.range' a n) xs = buf.take a ++ xs ++ buf.drop (a + n) := by
  induction n generalizing buf xs a with
  | zero =>
    obtain rfl := List.eq_nil_of_length_eq_zero hn
    simp [scatter]
  | succ n ih =>
    cases xs with
    | nil => simp at hn
    | cons x xs =>
      have hxs : xs.length = n := by simpa using hn
      rw [List.range'_succ, scatter, ih hxs (by rw [List.length_set]; omega),
        List.drop_set_of_lt (by omega), List.set_eq_take_append_cons_drop, if_pos (by omega)]
      have htake : (buf.take a ++ x :: buf.drop (a + 1)).take (a + 1) = buf.take a ++ [x] := by
        rw [List.take_append, List.length_take, Nat.min_eq_left (by omega), Nat.add_sub_cancel_left,
          List.take_take, Nat.min_eq_right (by omega), List.take_succ_cons, List.take_zero]
      have hrest : a + 1 + n = a + (n + 1) := by omega
      rw [htake, hrest, List.append_assoc (buf.take a) [x] xs, List.singleton_append]

theorem scatter_plain {xs : Frame} (memory : ℕ → UInt8) (hn : xs.length = n) :
    scatter (newBytes memory n) (plain n).moved xs = xs := by
  rw [plain, List.range_eq_range', scatter_range' hn (by rw [length_newBytes]; omega), List.take_zero,
    List.nil_append, List.drop_of_length_le (by rw [length_newBytes]; omega), List.append_nil]

end

/-! ## What the two ends are going to do -/

/-- The code sends these buffers, one after the other, and `m` bounds its moves apart from system calls. -/
inductive Sends (C : Primitives) : Prog cryptoSig Unit → List Frame → ℕ → Prop
  | done : Sends C (.done ()) [] 0
  | encrypt {s : Stream} {header pt : Frame} {k : Block pt.length × Block macLen → Prog cryptoSig Unit}
      {outs : List Frame} {m : ℕ} (h : Sends C (k (C.encrypt s header pt)) outs m) :
      Sends C (.callThen (.encryptAndAuthenticate s header pt) k) outs (m + 1)
  | send {b : Frame} {k : Prog cryptoSig Unit} {outs : List Frame} {m : ℕ} (hlen : b.length < 2 ^ 64)
      (h : Sends C k outs m) : Sends C (.sendThen b k) (b :: outs) (m + 1)

/-- The code, if it receives the buffers `ins`, returns `oks`, and has then accepted the messages `got`. -/
inductive Awaits (W : Setting) :
    Prog cryptoSig (List Bool) → List Frame → List Bool → List Frame → ℕ → Prop
  | done (oks : List Bool) : Awaits W (.done oks) [] oks [] 0
  | arrive {k : Bool → Prog cryptoSig (List Bool)} {k' : Frame → Prog cryptoSig (List Bool)} {b : Frame}
      {ins : List Frame} {oks : List Bool} {got : List Frame} {m : ℕ} (hk : k true = .recvThen b.length k')
      (hlen : b.length < 2 ^ 64) (h : Awaits W (k' b) ins oks got m) :
      Awaits W (.callThen (.arrives b.length) k) (b :: ins) oks got (m + 2)
  | verify {s : Stream} {header ct mac : Frame} {k : Block ct.length × Bool → Prog cryptoSig (List Bool)}
      {ins : List Frame} {oks : List Bool} {got now : List Frame} {m : ℕ}
      (hnow : ∀ memory, accepted [⟨.decryptAndVerify s header ct mac,
        idealDecrypt W.cipher W.made memory s header ct mac⟩] = now)
      (h : ∀ memory, Awaits W (k (idealDecrypt W.cipher W.made memory s header ct mac)) ins oks got m) :
      Awaits W (.callThen (.decryptAndVerify s header ct mac) k) ins oks (now ++ got) (m + 1)

/-- How long the buffer is that the code is sending. -/
def outgoing : Prog cryptoSig Unit → ℕ
  | .sendThen b _ => b.length
  | _ => 0

/-- How long the buffer is that the code is receiving. -/
def incoming : Prog cryptoSig (List Bool) → ℕ
  | .callThen (.arrives n) _ => n
  | _ => 0

/-- The receiver has received `j` bytes of the first of the buffers `ins`. -/
inductive Receiving (W : Setting) :
    Prog cryptoSig (List Bool) → List Frame → ℕ → List Bool → List Frame → ℕ → Prop
  | loop {p : Prog cryptoSig (List Bool)} {ins : List Frame} {j : ℕ} {oks : List Bool} {got : List Frame}
      {m : ℕ} (h : Awaits W p ins oks got m) (hj : j ≤ incoming p) : Receiving W p ins j oks got m
  | full {k : Frame → Prog cryptoSig (List Bool)} {b : Frame} {ins : List Frame} {oks : List Bool}
      {got : List Frame} {m : ℕ} (h : Awaits W (k b) ins oks got m) :
      Receiving W (.recvThen b.length k) (b :: ins) b.length oks got (m + 1)

namespace Pipe

/-- **What holds at any time**, if the sender sends `all` in total: the loops are somewhere in the buffers that
are to be sent and received, and the stream continues those.  The receiver is going to return `oks`, and to have
accepted `got`, and no more than `m` moves are left. -/
def Carries (W : Setting) (all : Frame) (oks : List Bool) (got : List Frame) (m : ℕ) (p : Pipe) : Prop :=
  ∃ outs ins later i j a b,
    (Sends W.cipher p.left outs a ∧ p.sending = plain i ∧ i ≤ outgoing p.left ∧
      all.drop p.pushed = outs.flatten.drop i) ∧
    (Receiving W p.right ins j oks later b ∧ p.receiving = plain j ∧ p.pulled = ins.flatten.take j) ∧
    p.wire ++ (all.mapIdx W.network).drop p.pushed = ins.flatten.drop j ∧
    accepted p.log ++ later = got ∧
    m = a + b + (outs.flatten.drop i).length + (ins.flatten.drop j).length

/-- What the network makes of a piece of the stream. -/
theorem mapIdx_take_drop (g : ℕ → UInt8 → UInt8) (l : Frame) (p n : ℕ) :
    (((l.drop p).take n).mapIdx fun i x ↦ g (p + i) x) = ((l.mapIdx g).drop p).take n := by
  refine List.ext_getElem? fun i ↦ ?_
  rw [List.getElem?_mapIdx, List.getElem?_take, List.getElem?_take, List.getElem?_drop,
    List.getElem?_drop, List.getElem?_mapIdx]
  split <;> rfl

variable {W : Setting} {all : Frame} {oks : List Bool} {got : List Frame} {m n : ℕ} {p p' : Pipe}

theorem Carries.stepLeft (h : p.Carries W all oks got m) (hstep : p.stepLeft W n = some p') :
    ∃ m' < m, p'.Carries W all oks got m' := by
  obtain ⟨outs, ins, later, i, j, a, b, ⟨hsends, hsending, hi, hall⟩, hright, hwire, hlog, rfl⟩ := h
  obtain ⟨left, sending, pushed, wire, right, receiving, pulled, log⟩ := p
  dsimp only at hsends hsending hi hall hright hwire hlog
  subst hsending
  cases hsends with
  | done => cases hstep
  | encrypt hk =>
    -- No buffer is being sent.
    obtain rfl : i = 0 := Nat.le_zero.mp hi
    obtain rfl := Option.some_inj.mp hstep
    refine ⟨_, ?_, outs, ins, later, 0, j, _, b, ⟨hk, rfl, Nat.zero_le _, hall⟩, hright, hwire, hlog, rfl⟩
    omega
  | @send f k outs a hlen hk =>
    rw [outgoing] at hi
    rw [Pipe.stepLeft] at hstep
    dsimp only at hstep
    have hdrop : (f :: outs).flatten.drop f.length = outs.flatten := List.drop_left
    split at hstep
    · rename_i hgo
      have hlt := (goesOn_plain hi hlen).mp hgo
      split at hstep
      · rename_i hmay
        rw [MayMove, toNat_plain (by omega)] at hmay
        obtain rfl := Option.some_inj.mp hstep
        have hpiece : (f.drop i).take n = (all.drop pushed).take n := by
          rw [hall, List.flatten_cons, List.drop_append_of_le_length hi,
            List.take_append_of_le_length (by rw [List.length_drop]; omega)]
        refine ⟨_, ?_, f :: outs, ins, later, i + n, j, a + 1, b, ⟨.send hlen hk, ?_, ?_, ?_⟩, hright, ?_,
          hlog, rfl⟩
        · simp only [List.length_drop, List.flatten_cons, List.length_append]
          omega
        · exact round_plain hmay.1 hmay.2.2 (by omega)
        · rw [outgoing]
          omega
        · rw [← List.drop_drop, hall, List.drop_drop]
        · rw [toNat_plain (by omega), hpiece, mapIdx_take_drop, List.append_assoc, ← List.drop_drop,
            List.take_append_drop]
          exact hwire
      · cases hstep
    · rename_i hstop
      have hfull : i = f.length := by
        have hge := mt (goesOn_plain hi hlen).mpr hstop
        omega
      obtain rfl := Option.some_inj.mp hstep
      refine ⟨_, ?_, outs, ins, later, 0, j, a, b, ⟨hk, plain_zero.symm, Nat.zero_le _, ?_⟩, hright, hwire,
        hlog, rfl⟩
      · rw [hfull, hdrop, List.drop_zero]
        omega
      · rw [hall, hfull, hdrop, List.drop_zero]

theorem Carries.stepRight {memory : ℕ → UInt8} (h : p.Carries W all oks got m)
    (hstep : p.stepRight W n memory = some p') : ∃ m' < m, p'.Carries W all oks got m' := by
  obtain ⟨outs, ins, later, i, j, a, b, hleft, ⟨hright, hreceiving, hpulled⟩, hwire, hlog, rfl⟩ := h
  obtain ⟨left, sending, pushed, wire, right, receiving, pulled, log⟩ := p
  dsimp only at hleft hright hreceiving hpulled hwire hlog
  subst hreceiving
  cases hright with
  | @full k f ins _ _ b hrest =>
    have hdrop : (f :: ins).flatten.drop f.length = ins.flatten := List.drop_left
    have htake : (f :: ins).flatten.take f.length = f := List.take_left
    rw [htake] at hpulled
    rw [Pipe.stepRight] at hstep
    dsimp only at hstep
    rw [hpulled, scatter_plain memory rfl] at hstep
    obtain rfl := Option.some_inj.mp hstep
    refine ⟨_, ?_, outs, ins, later, i, 0, a, b, hleft,
      ⟨.loop hrest (Nat.zero_le _), plain_zero.symm, rfl⟩, ?_, hlog, rfl⟩
    · rw [hdrop, List.drop_zero]
      omega
    · rw [hwire, hdrop, List.drop_zero]
  | loop hawaits hj =>
    cases hawaits with
    | done => cases hstep
    | @arrive k k' f ins _ _ b hk hlen hrest =>
      rw [incoming] at hj
      rw [Pipe.stepRight] at hstep
      dsimp only at hstep
      split at hstep
      · rename_i hgo
        have hlt := (goesOn_plain hj hlen).mp hgo
        split at hstep
        · rename_i hmay
          obtain ⟨⟨hpos, hle, hmax⟩, hthere⟩ := hmay
          rw [toNat_plain (by omega)] at hle
          obtain rfl := Option.some_inj.mp hstep
          have hpiece : wire.take n = ((f :: ins).flatten.drop j).take n := by
            rw [← hwire, List.take_append_of_le_length hthere]
          refine ⟨_, ?_, outs, f :: ins, later, i, j + n, a, b + 2, hleft,
            ⟨.loop (.arrive hk hlen hrest) ?_, round_plain hpos hmax (by omega), ?_⟩, ?_, hlog, rfl⟩
          · simp only [List.length_drop, List.flatten_cons, List.length_append]
            omega
          · rw [incoming]
            omega
          · rw [hpulled, hpiece, ← List.take_add]
          · rw [← List.drop_drop, ← hwire, List.drop_append_of_le_length hthere]
        · cases hstep
      · rename_i hstop
        obtain rfl : j = f.length := by
          have hge := mt (goesOn_plain hj hlen).mpr hstop
          omega
        rw [ok_plain, hk] at hstep
        obtain rfl := Option.some_inj.mp hstep
        refine ⟨_, ?_, outs, f :: ins, later, i, f.length, a, b + 1, hleft, ⟨.full hrest, rfl, hpulled⟩, hwire,
          ?_, rfl⟩
        · omega
        · rw [accepted_append]
          exact hlog ▸ congrArg (· ++ later) (List.append_nil _)
    | @verify s header ct mac k ins _ later now b hnow hrest =>
      -- No buffer is being received.
      obtain rfl : j = 0 := Nat.le_zero.mp hj
      obtain rfl := Option.some_inj.mp hstep
      refine ⟨_, ?_, outs, ins, later, i, 0, a, b, hleft,
        ⟨.loop (hrest memory) (Nat.zero_le _), rfl, hpulled⟩, hwire, ?_, rfl⟩
      · omega
      · rw [accepted_append, hnow, List.append_assoc]
        exact hlog

/-- **The step lemma.** -/
theorem Carries.step {e : PipeMove} (h : p.Carries W all oks got m) (hstep : p.step W e = some p') :
    ∃ m' < m, p'.Carries W all oks got m' := by
  cases e with
  | left n => exact h.stepLeft hstep
  | right n memory => exact h.stepRight hstep

/-- **The run lemma**: no run has more than `m` moves. -/
theorem Carries.run {es : List PipeMove} (h : p.Carries W all oks got m)
    (hrun : run (Pipe.step W) p es = some p') : es.length ≤ m ∧ ∃ m', p'.Carries W all oks got m' := by
  induction es generalizing p m with
  | nil =>
    obtain rfl : p = p' := Option.some_inj.mp hrun
    exact ⟨Nat.zero_le _, m, h⟩
  | cons e es ih =>
    obtain ⟨q, hq, hrest⟩ := run_cons_eq_some.mp hrun
    obtain ⟨k, hk, hcarries⟩ := h.step hq
    obtain ⟨hlen, hend⟩ := ih hcarries hrest
    exact ⟨by rw [List.length_cons]; omega, hend⟩

/-- **The end**: where nothing can move any more, everything has been received. -/
theorem Carries.of_stuck (h : p.Carries W all oks got m) (hstuck : Stuck (Pipe.step W) p) :
    p.right = .done oks ∧ accepted p.log = got := by
  obtain ⟨outs, ins, later, i, j, a, b, ⟨hsends, hsending, hi, hall⟩, ⟨hright, hreceiving, hpulled⟩, hwire, hlog,
    rfl⟩ := h
  obtain ⟨left, sending, pushed, wire, right, receiving, pulled, log⟩ := p
  dsimp only at hsends hsending hi hall hright hreceiving hpulled hwire hlog
  subst hsending hreceiving
  -- The sender has sent everything.
  have hsent : outs = [] ∧ i = 0 := by
    have hleft := hstuck (.left 1)
    rw [Pipe.step, Pipe.stepLeft] at hleft
    cases hsends with
    | done => exact ⟨rfl, Nat.le_zero.mp hi⟩
    | encrypt => cases hleft
    | send hlen =>
      dsimp only at hleft
      rw [outgoing] at hi
      split at hleft
      · rename_i hgo
        have hlt := (goesOn_plain hi hlen).mp hgo
        rw [if_pos] at hleft
        · cases hleft
        · rw [MayMove, toNat_plain (by omega), maxRwCount]
          omega
      · cases hleft
  obtain ⟨rfl, rfl⟩ := hsent
  have hempty : (all.mapIdx W.network).drop pushed = [] := by
    have hlen := congrArg List.length hall
    simp only [List.length_drop, List.flatten_nil, List.drop_nil, List.length_nil] at hlen
    exact List.drop_eq_nil_of_le (by rw [List.length_mapIdx]; omega)
  rw [hempty, List.append_nil] at hwire
  -- So what the receiver waits for is there.
  have hmove := hstuck (.right 1 fun _ ↦ 0)
  rw [Pipe.step, Pipe.stepRight] at hmove
  cases hright with
  | full => cases hmove
  | loop hawaits hj =>
    cases hawaits with
    | done => exact ⟨rfl, (List.append_nil _).symm.trans hlog⟩
    | verify => cases hmove
    | @arrive k k' f ins _ _ b hk hlen hrest =>
      dsimp only at hmove
      rw [incoming] at hj
      split at hmove
      · rename_i hgo
        have hlt := (goesOn_plain hj hlen).mp hgo
        have hthere := congrArg List.length hwire
        simp only [List.length_drop, List.flatten_cons, List.length_append] at hthere
        rw [if_pos] at hmove
        · cases hmove
        · rw [MayMove, toNat_plain (by omega), maxRwCount]
          omega
      · cases hmove

end Pipe

/-! ## Frames -/

/-- What is sent for these messages. -/
def buffers (C : Primitives) (s : Stream) (ms : List Frame) : List Frame :=
  ms.flatMap fun m ↦
    [(Encryption.frames C ⟨s, cipHeader, m⟩).1, (Encryption.frames C ⟨s, cipHeader, m⟩).2]

/-- What is received for them, of the same lengths, and what `recv` then returns and accepts. -/
inductive Hears (W : Setting) (s : Stream) : List Frame → List Frame → List Bool → List Frame → Prop
  | nil : Hears W s [] [] [] []
  | cons {m ct mac : Frame} {ok : Bool} {now ms ins : List Frame} {oks : List Bool} {got : List Frame}
      (hlen : m.length = ct.length) (hmac : mac.length = macLen)
      (hnow : ∀ memory, (idealDecrypt W.cipher W.made memory s cipHeader ct mac).2 = ok ∧
        accepted [⟨.decryptAndVerify s cipHeader ct mac,
          idealDecrypt W.cipher W.made memory s cipHeader ct mac⟩] = now)
      (h : Hears W s ms ins oks got) : Hears W s (m :: ms) (ct :: mac :: ins) (ok :: oks) (now ++ got)

section
variable {C : Primitives} {W : Setting} {s : Stream} {ms ins : List Frame} {oks : List Bool}
  {got : List Frame}

theorem sends_sendAll (hsize : ∀ m ∈ ms, m.length < 2 ^ 64) :
    Sends C (sendAll s ms) (buffers C s ms) (3 * ms.length) := by
  induction ms with
  | nil => exact .done
  | cons m ms ih =>
    have hct : (C.encrypt s cipHeader m).1.1.length < 2 ^ 64 := by
      rw [(C.encrypt s cipHeader m).1.2]
      exact hsize m List.mem_cons_self
    have hmac : (C.encrypt s cipHeader m).2.1.length < 2 ^ 64 := by
      rw [(C.encrypt s cipHeader m).2.2]
      decide
    have hrest := ih fun m' hm' ↦ hsize m' (List.mem_cons_of_mem m hm')
    rw [sendAll, send]
    refine .encrypt ?_
    change Sends C ((sendBuffer (some (C.encrypt s cipHeader m).1.1) m.length >>= fun _ ↦
      sendBuffer (some (C.encrypt s cipHeader m).2.1) macLen) >>= fun _ ↦ sendAll s ms) _ _
    rw [sendBuffer_some (C.encrypt s cipHeader m).1.2, sendBuffer_some (C.encrypt s cipHeader m).2.2]
    exact .send hct (.send hmac hrest)

theorem awaits_bind {p : Prog cryptoSig (List Bool)} {m : ℕ} (h : Awaits W p ins oks got m) (ok : Bool) :
    Awaits W (p >>= fun oks ↦ .done (ok :: oks)) ins (ok :: oks) got m := by
  induction h with
  | done oks => exact .done _
  | @arrive k k' b ins oks got m hk hlen h ih =>
    have hreceives : (k true >>= fun oks ↦ .done (ok :: oks)) =
        .recvThen b.length fun f ↦ k' f >>= fun oks ↦ .done (ok :: oks) := by
      rw [hk]
      exact Prog.recvThen_bind ..
    exact .arrive hreceives hlen ih
  | verify hnow h ih => exact .verify hnow ih

theorem awaits_recvAll (hsize : ∀ m ∈ ms, m.length < 2 ^ 64) (h : Hears W s ms ins oks got) :
    Awaits W (recvAll s (ms.map List.length)) ins oks got (5 * ms.length) := by
  induction h with
  | nil => exact .done []
  | @cons m ct mac ok now ms ins oks got hlen hmac hnow h ih =>
    have hrest := ih fun m' hm' ↦ hsize m' (List.mem_cons_of_mem m hm')
    have hct : ct.length < 2 ^ 64 := hlen ▸ hsize m List.mem_cons_self
    have hmacs : mac.length < 2 ^ 64 := by
      rw [hmac]
      decide
    rw [List.map_cons, recvAll, hlen, recv, ← hmac]
    refine .arrive rfl hct (.arrive rfl hmacs (.verify (fun memory ↦ (hnow memory).2) fun memory ↦ ?_))
    rw [← (hnow memory).1]
    exact awaits_bind hrest _

/-- **What comes of a connection**: if the network makes of what is sent what is heard, all of it is received,
whatever the pieces are. -/
theorem carries_start (hsize : ∀ m ∈ ms, m.length < 2 ^ 64) (h : Hears W s ms ins oks got)
    (hnetwork : (buffers W.cipher s ms).flatten.mapIdx W.network = ins.flatten) :
    ∃ m, (Pipe.start (sendAll s ms) (recvAll s (ms.map List.length))).Carries W
      (buffers W.cipher s ms).flatten oks got m :=
  ⟨_, _, ins, got, 0, 0, _, _, ⟨sends_sendAll hsize, plain_zero.symm, Nat.zero_le _, rfl⟩,
    ⟨.loop (awaits_recvAll hsize h) (Nat.zero_le _), plain_zero.symm, rfl⟩, hnetwork, rfl, rfl⟩

end

/-! ## Frames that arrive as they were sent, and frames that do not -/

/-- **An ideal cipher has no collisions**: among the encryptions of a connection, those with one stream and one
header have different ciphertexts, and different MACs, if they are of different plaintexts. -/
def Collisionless (C : Primitives) (made : List Encryption) : Prop :=
  ∀ e ∈ made, ∀ e' ∈ made, e.stream = e'.stream → e.header = e'.header →
    ((e.frames C).1 = (e'.frames C).1 ∨ (e.frames C).2 = (e'.frames C).2) → e.pt = e'.pt

section
variable {W : Setting} {s : Stream} {m ct mac : Frame} {ms ins : List Frame} {oks : List Bool}
  {got : List Frame}

theorem hears_intact (hC : W.cipher.Correct) (hmade : ⟨s, cipHeader, m⟩ ∈ W.made)
    (h : Hears W s ms ins oks got) : Hears W s (m :: ms) (buffers W.cipher s [m] ++ ins) (true :: oks)
      ([m] ++ got) := by
  refine .cons (W.cipher.encrypt s cipHeader m).1.2.symm (W.cipher.encrypt s cipHeader m).2.2
    (fun memory ↦ ?_) h
  obtain ⟨hpt, hok⟩ := idealDecrypt_of_mem memory hC hmade rfl
  refine ⟨hok, ?_⟩
  rw [Attacked.accepted_decrypt]
  exact (if_pos hok).trans (congrArg (fun x ↦ [x]) hpt)

/-- A frame that differs from one that was made in its ciphertext only, or in its MAC only, is rejected. -/
theorem hears_damaged (hC : Collisionless W.cipher W.made) (hmade : ⟨s, cipHeader, m⟩ ∈ W.made)
    (hlen : m.length = ct.length) (hmac : mac.length = macLen)
    (hdamage : (ct, mac) ≠ Encryption.frames W.cipher ⟨s, cipHeader, m⟩)
    (hpart : ct = (Encryption.frames W.cipher ⟨s, cipHeader, m⟩).1 ∨
      mac = (Encryption.frames W.cipher ⟨s, cipHeader, m⟩).2)
    (h : Hears W s ms ins oks got) : Hears W s (m :: ms) (ct :: mac :: ins) (false :: oks) ([] ++ got) := by
  refine .cons hlen hmac (fun memory ↦ ?_) h
  have hok : ¬(idealDecrypt W.cipher W.made memory s cipHeader ct mac).2 = true := by
    intro hok
    obtain ⟨pt, hpt, hframes⟩ := exists_of_idealDecrypt hok
    have hct : (Encryption.frames W.cipher ⟨s, cipHeader, pt⟩).1 = ct := congrArg Prod.fst hframes
    have hmac : (Encryption.frames W.cipher ⟨s, cipHeader, pt⟩).2 = mac := congrArg Prod.snd hframes
    rw [← hct, ← hmac] at hpart
    rw [← hframes] at hdamage
    exact hdamage (congrArg (fun x ↦ Encryption.frames W.cipher ⟨s, cipHeader, x⟩)
      (hC _ hpt _ hmade rfl rfl hpart))
  refine ⟨Bool.eq_false_of_not_eq_true hok, ?_⟩
  rw [Attacked.accepted_decrypt, if_neg hok]

/-- All frames before others are intact. -/
theorem hears_append {before : List Frame} (hC : W.cipher.Correct)
    (hmade : ∀ m ∈ before, ⟨s, cipHeader, m⟩ ∈ W.made) (h : Hears W s ms ins oks got) :
    Hears W s (before ++ ms) (buffers W.cipher s before ++ ins) (before.map (fun _ ↦ true) ++ oks)
      (before ++ got) := by
  induction before with
  | nil => exact h
  | cons m before ih =>
    have hrest := ih fun m' hm' ↦ hmade m' (List.mem_cons_of_mem m hm')
    exact hears_intact hC (hmade m List.mem_cons_self) hrest

theorem hears_all (hC : W.cipher.Correct) (hmade : ∀ m ∈ ms, ⟨s, cipHeader, m⟩ ∈ W.made) :
    Hears W s ms (buffers W.cipher s ms) (ms.map fun _ ↦ true) ms := by
  have h := hears_append hC hmade .nil
  rwa [List.append_nil, List.append_nil, List.append_nil] at h

end

/-! ## A byte that changes -/

section
variable {flip : UInt8 → UInt8} {l l' : Frame} {t : ℕ}

/-- The `t`th byte changes. -/
def change (flip : UInt8 → UInt8) (t : ℕ) (l : Frame) : Frame :=
  l.mapIdx fun i x ↦ if i = t then flip x else x

theorem length_change : (change flip t l).length = l.length := List.length_mapIdx

theorem change_append_left (ht : t < l.length) : change flip t (l ++ l') = change flip t l ++ l' := by
  rw [change, List.mapIdx_append, ← change]
  refine congrArg (change flip t l ++ ·) (List.ext_getElem? fun i ↦ ?_)
  simp only [List.getElem?_mapIdx, if_neg (show ¬i + l.length = t by omega), Option.map_id']

theorem change_append_right : change flip (l.length + t) (l ++ l') = l ++ change flip t l' := by
  refine List.ext_getElem? fun i ↦ ?_
  rw [change, List.getElem?_mapIdx]
  rcases Nat.lt_or_ge i l.length with hlt | hge
  · simp only [List.getElem?_append_left hlt, if_neg (show ¬i = l.length + t by omega), Option.map_id']
  · have hiff : i = l.length + t ↔ i - l.length = t := by omega
    simp only [List.getElem?_append_right hge, change, List.getElem?_mapIdx, hiff]

theorem change_ne (hflip : ∀ x, flip x ≠ x) (ht : t < l.length) : change flip t l ≠ l := by
  intro heq
  have hbyte := congrArg (fun l ↦ l[t]?) heq
  simp only [change, List.getElem?_mapIdx, List.getElem?_eq_getElem ht, if_true, Option.map_some,
    Option.some_inj] at hbyte
  exact hflip _ hbyte

end

/-! ## The channel -/

namespace Setting

/-- With a network that changes nothing. -/
def faithful (W : Setting) : Setting := { W with network := fun _ x ↦ x }

/-- With a network that changes the `t`th byte. -/
def changing (W : Setting) (flip : UInt8 → UInt8) (t : ℕ) : Setting :=
  { W with network := fun i x ↦ if i = t then flip x else x }

/-- **What comes of the messages**, whatever the pieces are: every run ends, and at its end `recv` has returned
`oks`, and where it returned true it has got the messages `got`. -/
def Delivers (W : Setting) (s : Stream) (ms : List Frame) (oks : List Bool) (got : List Frame) : Prop :=
  ∃ bound, ∀ es p, run (Pipe.step W) (.start (sendAll s ms) (recvAll s (ms.map List.length))) es = some p →
    es.length ≤ bound ∧ (Stuck (Pipe.step W) p → p.right = .done oks ∧ accepted p.log = got)

variable {W : Setting} {s : Stream} {ms ins : List Frame} {oks : List Bool} {got : List Frame}

theorem delivers_of_hears (hsize : ∀ m ∈ ms, m.length < 2 ^ 64) (h : Hears W s ms ins oks got)
    (hnetwork : (buffers W.cipher s ms).flatten.mapIdx W.network = ins.flatten) :
    W.Delivers s ms oks got := by
  obtain ⟨bound, hstart⟩ := carries_start hsize h hnetwork
  refine ⟨bound, fun es p hrun ↦ ?_⟩
  obtain ⟨hlen, m, hend⟩ := hstart.run hrun
  exact ⟨hlen, hend.of_stuck⟩

/-- **The encrypted sockets are a transparent channel**: on a network that changes nothing, whatever the pieces
are, each message is received as it was sent.  If instead one byte of the frame of `m` is changed, that frame
is rejected, and the others are received. -/
theorem transparent (W : Setting) (s : Stream) (ms : List Frame) (hC : W.cipher.Correct)
    (hmade : ∀ m ∈ ms, ⟨s, cipHeader, m⟩ ∈ W.made) (hsize : ∀ m ∈ ms, m.length < 2 ^ 64) :
    W.faithful.Delivers s ms (ms.map fun _ ↦ true) ms ∧
    (Collisionless W.cipher W.made → ∀ before m after flip t, ms = before ++ m :: after →
      (∀ x, flip x ≠ x) → t < m.length + macLen →
      (W.changing flip ((buffers W.cipher s before).flatten.length + t)).Delivers s ms
        (before.map (fun _ ↦ true) ++ false :: after.map fun _ ↦ true) (before ++ after)) := by
  constructor
  · refine delivers_of_hears hsize (hears_all (W := W.faithful) hC hmade) ?_
    exact List.ext_getElem? fun i ↦ by simp only [faithful, List.getElem?_mapIdx, Option.map_id']
  · rintro hdistinct before m after flip t rfl hflip ht
    let V := W.changing flip ((buffers W.cipher s before).flatten.length + t)
    let ct := (Encryption.frames W.cipher ⟨s, cipHeader, m⟩).1
    let mac := (Encryption.frames W.cipher ⟨s, cipHeader, m⟩).2
    have hct : ct.length = m.length := (W.cipher.encrypt s cipHeader m).1.2
    have hmac : mac.length = macLen := (W.cipher.encrypt s cipHeader m).2.2
    have hm : ⟨s, cipHeader, m⟩ ∈ W.made := hmade m (by simp)
    have hafter : Hears V s after (buffers W.cipher s after) (after.map fun _ ↦ true) after :=
      hears_all (W := V) hC fun m' hm' ↦ hmade m' (by simp [hm'])
    have hbefore : ∀ m' ∈ before, ⟨s, cipHeader, m'⟩ ∈ W.made := fun m' hm' ↦ hmade m' (by simp [hm'])
    have hsent : (buffers W.cipher s (before ++ m :: after)).flatten =
        (buffers W.cipher s before).flatten ++ (ct ++ (mac ++ (buffers W.cipher s after).flatten)) := by
      simp [buffers, ct, mac]
    have hnetwork : ∀ ct' mac', change flip t (ct ++ mac) = ct' ++ mac' →
        (buffers W.cipher s (before ++ m :: after)).flatten.mapIdx V.network =
          (buffers V.cipher s before ++ ct' :: mac' :: buffers V.cipher s after).flatten := by
      intro ct' mac' hchange
      rw [hsent, ← List.append_assoc ct]
      refine change_append_right.trans ?_
      rw [change_append_left (by rw [List.length_append]; omega), hchange]
      simp [V, changing]
    rcases Nat.lt_or_ge t ct.length with hin | hout
    · have hlen : m.length = (change flip t ct).length := by rw [length_change, hct]
      have hdamaged : Hears V s (m :: after) (change flip t ct :: mac :: buffers W.cipher s after)
          (false :: after.map fun _ ↦ true) ([] ++ after) :=
        hears_damaged hdistinct hm hlen hmac (fun heq ↦ change_ne hflip hin (Prod.mk.inj heq).1) (.inr rfl)
          hafter
      exact delivers_of_hears hsize (hears_append hC hbefore hdamaged) (hnetwork _ _ (change_append_left hin))
    · obtain ⟨r, rfl⟩ := Nat.exists_eq_add_of_le hout
      have hlen : (change flip r mac).length = macLen := by rw [length_change, hmac]
      have hdamaged : Hears V s (m :: after) (ct :: change flip r mac :: buffers W.cipher s after)
          (false :: after.map fun _ ↦ true) ([] ++ after) :=
        hears_damaged hdistinct hm hct.symm hlen
          (fun heq ↦ change_ne hflip (by omega) (Prod.mk.inj heq).2) (.inl rfl) hafter
      exact delivers_of_hears hsize (hears_append hC hbefore hdamaged) (hnetwork _ _ change_append_right)

/-- A cipher whose MAC is the beginning of the plaintext. -/
def labelled : Primitives :=
  { Honest.plain with
    encrypt := fun s _ pt ↦
      (Honest.mask s.key pt, ⟨(pt ++ .replicate macLen 0).take macLen, by simp⟩) }

theorem labelled_correct : labelled.Correct := ⟨Honest.plain_correct.agree, Honest.plain_correct.decrypt⟩

/-- From a client to a server, with two messages. -/
def small : Setting where
  tx := ClientSocket.send
  rx := ServerSocket.recv
  cipher := labelled
  made := [⟨⟨[7], []⟩, cipHeader, [1]⟩, ⟨⟨[7], []⟩, cipHeader, [2, 3]⟩]
  network _ x := x

theorem transparent_small : small.faithful.Delivers ⟨[7], []⟩ [[1], [2, 3]] [true, true] [[1], [2, 3]] ∧
    (small.changing (fun x ↦ ~~~x) 1).Delivers ⟨[7], []⟩ [[1], [2, 3]] [false, true] [[2, 3]] := by
  obtain ⟨hall, hchanged⟩ := transparent small ⟨[7], []⟩ [[1], [2, 3]] labelled_correct (by decide)
    (by decide)
  have hdistinct : Collisionless small.cipher small.made := by
    unfold Collisionless
    decide
  exact ⟨hall, hchanged hdistinct [] [1] [[2, 3]] (fun x ↦ ~~~x) 1 rfl
    (fun _ ↦ UInt8.not_ne_self) (by decide)⟩

end Setting

end Crypto
end RfcNet
