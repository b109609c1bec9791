import RfcNet.Advertising
import RfcNet.Lib.Lines

/-!
# The loop of commands

The loop of `main` in `client.cpp`, with the standard input it reads.  `commandLoop` is told what the user has
entered; here this is what `std::getline` and the expression `^get (\d+)$` make of the bytes of `std::cin`.
`std::stoi` throws for a number that is no `int`, and nobody catches it.  The stack is taken as unbounded, also
where `std::regex_match` goes down one level for each character of a line.

The loop is left only by a line that is `quit`.  The end of the input is not looked at, so without such a line
the last one is obeyed for ever, or the empty string is refused for ever.  Hence the client takes its leave of
the index exactly if there is a line that is `quit`, and no number before it is too large (`signsOff_iff`).
-/

set_option autoImplicit false

namespace RfcNet

open Lib RFCManager

attribute [local irreducible] sizeT

/-! ## What a line is taken for -/

/-- What the loop takes a line for. -/
inductive Entered
  | get (rfcNum : Int32)
  | list
  | listl
  | help
  | invalid
  | quit
  deriving DecidableEq, Repr

/-- As a command to the session with the index. -/
def Entered.command : Entered → Command
  | .get rfcNum => .get rfcNum
  | .list => .list
  | .listl => .other
  | .help => .other
  | .invalid => .other
  | .quit => .quit

/-- `quit`. -/
def quitLine : StdString := [113, 117, 105, 116]

/-- The digits in `input.c_str()`, if it matches `^get (\d+)$`. -/
def matchGet (input : StdString) : Option StdString :=
  let line := cString input
  if line.take 4 = [103, 101, 116, 32] ∧ line.drop 4 ≠ [] ∧
      (line.drop 4).all (fun c ↦ 48 ≤ c && c ≤ 57) then some (line.drop 4)
  else none

/-- What a line is taken for, unless `std::stoi` throws. -/
def interpret (input : StdString) : Except RFCManager.Exception Entered :=
  match matchGet input with
  | some number => (stoi number).map .get
  | none =>
    if input = [108, 105, 115, 116] then .ok .list
    else if input = [108, 105, 115, 116, 108] then .ok .listl
    else if input = [104, 101, 108, 112] then .ok .help
    else if input ≠ quitLine then .ok .invalid
    else .ok .quit

/-! ## The loop -/

/-- An exception that leaves `main`. -/
inductive Uncaught
  /-- From `std::stoi`. -/
  | stoi (e : RFCManager.Exception)
  /-- From `list_rfcs_local`. -/
  | listing (e : RFCManager.Exception)
  /-- From `get_rfc` or `list_rfcs_remote`. -/
  | network (e : Crash)
  deriving DecidableEq, Repr

/-- Where `main` is. -/
inductive Status
  | looping
  | returned (code : Int32)
  | terminated (e : Uncaught)
  deriving DecidableEq, Repr

/-- What one round of the loop has done. -/
structure Round where
  /-- The line that has been read, if any. -/
  read : Option StdString
  /-- What `input` has been taken for. -/
  command : Option Entered
  /-- What has been sent to the index. -/
  sent : List Frame

/-- `main`, at the top of its loop or behind it. -/
structure Shell where
  /-- `std::cin`. -/
  stdin : IStream UInt8
  /-- The variable `input`. -/
  input : StdString
  /-- The directory of `rfc_manager`. -/
  files : Directory
  /-- The rounds so far. -/
  rounds : List Round
  /-- Where it is. -/
  status : Status

/-- `list_rfcs_local`. -/
def listRfcsLocal (d : Directory) : Except RFCManager.Exception Unit := (getRfcs d).map fun _ ↦ ()

/-- The calls of the loop, when the user has entered `command`. -/
def Fetch.prompted (fetch : Fetch) (command : Command) (s : Store) :
    (op : ClientOp) → Except Crash op.Res × Store
  | .readCommand => (.ok command, s)
  | op => fetch.answer s op

/-- What comes of a round of `commandLoop`. -/
def Fetch.outcomeOfRound (fetch : Fetch) (command : Command) (files : Directory) :
    Prog.Outcome clientSig Store (Unit ⊕ Int32) :=
  (commandLoop ()).play (fetch.prompted command) ⟨files, 0⟩ fetch.index

/-- What a round ends with. -/
def Status.ofResult : Except Crash (Unit ⊕ Int32) → Status
  | .ok (.inl ()) => .looping
  | .ok (.inr code) => .returned code
  | .error e => .terminated (.network e)

namespace Shell

/-- The loop is entered. -/
def start (bytes : StdString) (d : Directory) : Shell := ⟨.ofList bytes, [], d, [], .looping⟩

/-- The body of the loop.  `fetch` is what the client will receive meanwhile. -/
def round (fetch : Fetch) (s : Shell) : Shell :=
  let (stdin, input) := s.stdin.getline 10 s.input
  let read := if stdin.fail then none else some input
  match interpret input with
  | .error e => ⟨stdin, input, s.files, s.rounds ++ [⟨read, none, []⟩], .terminated (.stoi e)⟩
  | .ok entered =>
    match if entered = .listl then listRfcsLocal s.files else .ok () with
    | .error e => ⟨stdin, input, s.files, s.rounds ++ [⟨read, some entered, []⟩], .terminated (.listing e)⟩
    | .ok () =>
      let o := fetch.outcomeOfRound entered.command s.files
      ⟨stdin, input, o.state.files, s.rounds ++ [⟨read, some entered, o.sent⟩], .ofResult o.result⟩

/-- The loop goes round, if it has not been left. -/
def next (fetch : Fetch) (s : Shell) : Shell := if s.status = .looping then s.round fetch else s

/-- The loop has gone round `k` times; `world` is what the client receives in each round. -/
def after : (ℕ → Fetch) → ℕ → Shell → Shell
  | _, 0, s => s
  | world, k + 1, s => after (fun i ↦ world (i + 1)) k (s.next (world 0))

/-- What has been sent to the index. -/
def sent (s : Shell) : List Frame := s.rounds.flatMap Round.sent

end Shell

/-! ## What is asked of it -/

/-- The lines up to the first that is `quit`. -/
def upToQuit : List StdString → List StdString
  | [] => []
  | line :: ls => if line = quitLine then [line] else line :: upToQuit ls

/-- **The client has taken its leave**, having obeyed the input. -/
structure Shell.SignedOff (bytes : StdString) (s : Shell) : Prop where
  /-- `main` has returned. -/
  returned : s.status = .returned 0
  /-- Each line has been read once, up to `quit` or the end. -/
  reads : s.rounds.map Round.read = (upToQuit (lines 10 bytes)).map some
  /-- For each line, what it says has been done. -/
  commands : s.rounds.map Round.command =
    (upToQuit (lines 10 bytes)).map fun line ↦ (interpret line).toOption
  /-- DISCONNECT has been sent once, and then nothing. -/
  disconnected : ∃ before, s.sent = before ++ [wireInt P2SMessage.disconnect.toInt] ∧
    requests s.sent = requests before ++ [.disconnect] ∧ .disconnect ∉ requests before

/-- The loop ends so. -/
def SignsOff (world : ℕ → Fetch) (d : Directory) (bytes : StdString) : Prop :=
  ∃ k, ((Shell.start bytes d).after world k).SignedOff bytes

/-- A line whose number is no `int`. -/
def TooLarge (line : StdString) : Prop := ∃ number, matchGet line = some number ∧ ∀ n, stoi number ≠ .ok n

/-- Some line is `quit`, and no number before the first such line is too large. -/
def Quits (ls : List StdString) : Prop :=
  ∃ before rest, ls = before ++ quitLine :: rest ∧ quitLine ∉ before ∧ ∀ line ∈ before, ¬ TooLarge line

/-! ## Frames that are whole requests -/

/-- The frames are requests that are complete, and leave the session open. -/
def Whole (frames : List Frame) : Prop :=
  .disconnect ∉ requests frames ∧ ∀ rest, requests (frames ++ rest) = requests frames ++ requests rest

theorem whole_nil : Whole [] := ⟨List.not_mem_nil, fun _ ↦ rfl⟩

theorem Whole.append {f g : List Frame} (hf : Whole f) (hg : Whole g) : Whole (f ++ g) := by
  refine ⟨?_, fun rest ↦ ?_⟩
  · rw [hf.2, List.mem_append, not_or]
    exact ⟨hf.1, hg.1⟩
  · rw [List.append_assoc, hf.2, hf.2, hg.2, List.append_assoc]

/-- A single request. -/
theorem whole_of_requests {frames : List Frame} (request : Request) (hne : request ≠ .disconnect)
    (h : ∀ rest, requests (frames ++ rest) = request :: requests rest) : Whole frames := by
  have hself := h []
  rw [List.append_nil, requests_nil] at hself
  refine ⟨?_, fun rest ↦ ?_⟩
  · rw [hself, List.mem_singleton]
    exact hne.symm
  · rw [hself, h]
    rfl

theorem whole_list : Whole [wireInt P2SMessage.list.toInt] := by
  refine whole_of_requests .list nofun fun rest ↦ ?_
  rw [List.singleton_append, requests_of_length (length_wireInt _), unwireInt_wireInt, P2SMessage.ofInt?_toInt]

theorem whole_lookup (n : Int32) : Whole [wireInt P2SMessage.lookup.toInt, wireInt n] :=
  whole_of_requests (.lookup n) nofun (Fetch.requests_lookup n)

theorem whole_add (n : Int32) : Whole [wireInt P2SMessage.add.toInt, wireInt n] :=
  whole_of_requests (.add n) nofun (Fetch.requests_add n)

/-- DISCONNECT after whole requests. -/
theorem Whole.requests_disconnect {frames : List Frame} (h : Whole frames) :
    requests (frames ++ [wireInt P2SMessage.disconnect.toInt]) = requests frames ++ [.disconnect] := by
  rw [h.2, requests_of_length (length_wireInt _), unwireInt_wireInt, P2SMessage.ofInt?_toInt]

/-! ## The directory -/

/-- All names can be parsed. -/
def Listable (d : Directory) : Prop := ∃ l, getRfcs d = .ok l

/-- **A download can be listed.** -/
theorem Listable.addRfc {d : Directory} {n : Int32} (h : Listable d) (hn : 0 ≤ n)
    (canOpen : StdString → Bool) (content : StdString) : Listable (RFCManager.addRfc canOpen d n content).2 := by
  rw [RFCManager.addRfc]
  split
  · refine exists_getRfcs_iff.mpr fun name hname ↦ ?_
    obtain ⟨hkey, hdots⟩ := mem_items.mp hname
    rw [← AList.mem_keys, AList.mem_insert] at hkey
    rcases hkey with rfl | hkey
    · exact ⟨n, parseFilename_fileName hn⟩
    · exact exists_getRfcs_iff.mp h name (mem_items.mpr ⟨AList.mem_keys.mp hkey, hdots⟩)
  · exact h

/-! ## What a network command does -/

namespace Fetch

variable {fetch : Fetch}

section
variable {command : Command}

/-- What the commands are to do: the directory can be listed as before, and what they send is whole. -/
abbrev Keeps (fetch : Fetch) (command : Command) {α : Type} (p : Prog clientSig α) : Prop :=
  p.Ensures (fetch.prompted command) (fun s ↦ Listable s.files) Whole

theorem Keeps.bind {α β : Type} {p : Prog clientSig α} {g : α → Prog clientSig β}
    (hp : fetch.Keeps command p) (hg : ∀ a, fetch.Keeps command (g a)) : fetch.Keeps command (p >>= g) :=
  Prog.Ensures.bind hp hg fun _ _ ↦ Whole.append

theorem keeps_done {α : Type} (a : α) : fetch.Keeps command (.done a : Prog clientSig α) :=
  .done a whole_nil

theorem keeps_ofExcept {α ε : Type} (err : ε → Crash) (x : Except ε α) :
    fetch.Keeps command (.ofExcept err x : Prog clientSig α) := by
  cases x with
  | ok a => exact keeps_done a
  | error e => exact .raise _

/-- A call that leaves the directory alone. -/
theorem keeps_ask {op : ClientOp} (hop : ∀ s, (fetch.prompted command s op).2.files = s.files) :
    fetch.Keeps command (ask op) :=
  .call (fun s hs ↦ (congrArg Listable (hop s)).mpr hs) fun r ↦ keeps_done r

theorem keeps_askAdd {n : Int32} (hn : 0 < n) : fetch.Keeps command (askAdd n) :=
  .of_exec (whole_add n) fun s hs ↦
    ⟨_, _, { s with allocated := s.allocated + 1 }, exec_askAdd hn (fetch.memory s.allocated),
      ⟨_, rfl, rfl⟩, hs⟩

theorem keeps_askLookup {n : Int32} (hn : 0 < n) : fetch.Keeps command (askLookup n) :=
  .of_exec (whole_lookup n) fun s hs ↦
    ⟨_, _, { s with allocated := s.allocated + 1 }, exec_askLookup hn (fetch.memory s.allocated),
      ⟨_, rfl, rfl⟩, hs⟩

theorem keeps_askList : fetch.Keeps command askList :=
  .of_exec whole_list fun s hs ↦ ⟨_, _, s, exec_askList, rfl, hs⟩

theorem keeps_recv (n : ℕ) : fetch.Keeps command (.recv n) := .recv keeps_done

theorem keeps_receiveReply : fetch.Keeps command receiveReply := by
  refine Keeps.bind (.recv fun f ↦ keeps_done _) fun size ↦ ?_
  split
  · exact .raise _
  · exact keeps_recv _

theorem keeps_awaitAdd (n : Int32) : fetch.Keeps command (awaitAdd n) :=
  Keeps.bind (keeps_recv _) fun _ ↦ Keeps.bind (keeps_ofExcept _ _) fun res ↦
    Keeps.bind (keeps_ask fun _ ↦ rfl) fun _ ↦ keeps_done res

theorem keeps_awaitList : fetch.Keeps command awaitList :=
  Keeps.bind keeps_receiveReply fun _ ↦ Keeps.bind (keeps_ofExcept _ _) fun res ↦
    Keeps.bind (keeps_ask fun _ ↦ rfl) fun _ ↦ keeps_done res

theorem keeps_awaitLookup (n : Int32) : fetch.Keeps command (awaitLookup n) :=
  Keeps.bind keeps_receiveReply fun _ ↦ Keeps.bind (keeps_ofExcept _ _) fun res ↦
    Keeps.bind (keeps_ask fun _ ↦ rfl) fun _ ↦ keeps_done res

theorem keeps_getFromPeer {n : Int32} (hn : 0 < n) (client : Client) :
    fetch.Keeps command (ask (.getFromPeer n client)) := by
  refine .call (fun s hs ↦ ?_) fun r ↦ keeps_done r
  rcases fetch.files_outcomeFromPeer n s with hfiles | ⟨content, hfiles⟩
  · exact (congrArg Listable hfiles).mpr hs
  · exact (congrArg Listable hfiles).mpr (hs.addRfc (Int32.le_of_lt hn) _ _)

theorem keeps_getRfc (n : Int32) : fetch.Keeps command (getRfc n) := by
  rw [getRfc]
  split
  · exact keeps_done ()
  rename_i hn
  rw [Int32.not_le] at hn
  refine Keeps.bind (keeps_ask fun _ ↦ rfl) fun stored ↦ ?_
  split
  · exact keeps_done ()
  refine Keeps.bind (keeps_askLookup hn) fun _ ↦ Keeps.bind (keeps_awaitLookup n) fun res ↦ ?_
  split
  · exact keeps_done ()
  split
  · exact .raise _
  refine Keeps.bind (keeps_getFromPeer hn _) fun got ↦ ?_
  split
  · exact keeps_done ()
  · exact Keeps.bind (keeps_askAdd hn) fun _ ↦ Keeps.bind (keeps_awaitAdd n) fun _ ↦ keeps_done ()

theorem keeps_listRfcsRemote : fetch.Keeps command listRfcsRemote :=
  Keeps.bind keeps_askList fun _ ↦ Keeps.bind keeps_awaitList fun _ ↦ keeps_done ()

end

/-! ## A round of the session -/

/-- `quit` sends DISCONNECT. -/
theorem outcomeOfRound_quit (fetch : Fetch) (d : Directory) : fetch.outcomeOfRound .quit d =
    ⟨[wireInt P2SMessage.disconnect.toInt], ⟨d, 0⟩, .ok (.inr 0)⟩ := rfl

/-- What comes of a round that is to go on. -/
def GoesOn (o : Prog.Outcome clientSig Store (Unit ⊕ Int32)) : Prop :=
  Listable o.state.files ∧ ((o.result = .ok (.inl ()) ∧ Whole o.sent) ∨ ∃ e, o.result = .error e)

/-- The loop goes on after what returns. -/
theorem Keeps.goesOn {command : Command} {p : Prog clientSig Unit} (h : fetch.Keeps command p) {s : Store}
    (hs : Listable s.files) (bytes : ℕ → UInt8) :
    GoesOn ((p >>= fun _ ↦ .done (.inl ())).play (fetch.prompted command) s bytes) := by
  obtain ⟨hstate, hsent⟩ := h s bytes hs
  cases hresult : (p.play (fetch.prompted command) s bytes).result with
  | ok a =>
    obtain ⟨bytes', hplay⟩ := Prog.play_bind_ok (g := fun _ ↦ (.done (.inl ()) : clientMain.Code)) hresult
    rw [hplay, Prog.play, Prog.Outcome.after, List.append_nil]
    exact ⟨hstate, .inl ⟨rfl, hsent a hresult⟩⟩
  | error e =>
    rw [Prog.play_bind_error hresult]
    exact ⟨hstate, .inr ⟨e, rfl⟩⟩

/-- **Anything else** goes on, or is left by an exception. -/
theorem goesOn_outcomeOfRound (fetch : Fetch) {command : Command} (hquit : command ≠ .quit) {d : Directory}
    (hd : Listable d) : GoesOn (fetch.outcomeOfRound command d) := by
  have hs : Listable (Store.mk d 0).files := hd
  cases command with
  | list => exact Keeps.goesOn keeps_listRfcsRemote hs fetch.index
  | get n => exact Keeps.goesOn (keeps_getRfc n) hs fetch.index
  | quit => exact absurd rfl hquit
  | other => exact ⟨hd, .inl ⟨rfl, whole_nil⟩⟩

end Fetch

/-! ## Lines -/

section
variable {line : StdString} {ls : List StdString}

theorem interpret_quitLine : interpret quitLine = .ok .quit := by decide

theorem interpret_some {number : StdString} (h : matchGet line = some number) :
    interpret line = (stoi number).map .get := by
  rw [interpret, h]

theorem interpret_none (h : matchGet line = none) : interpret line =
    if line = [108, 105, 115, 116] then .ok .list
    else if line = [108, 105, 115, 116, 108] then .ok .listl
    else if line = [104, 101, 108, 112] then .ok .help
    else if line ≠ quitLine then .ok .invalid
    else .ok .quit := by
  rw [interpret, h]

/-- A number that is no `int` is an exception. -/
theorem interpret_of_tooLarge (h : TooLarge line) : ∃ e, interpret line = .error e := by
  obtain ⟨number, hmatch, hstoi⟩ := h
  rw [interpret_some hmatch]
  cases hnumber : stoi number with
  | ok n => exact absurd hnumber (hstoi n)
  | error e => exact ⟨e, rfl⟩

theorem not_tooLarge {entered : Entered} (h : interpret line = .ok entered) : ¬ TooLarge line := by
  intro hlarge
  obtain ⟨e, he⟩ := interpret_of_tooLarge hlarge
  rw [he] at h
  cases h

/-- Any other line is something, and `quit` only if it says so. -/
theorem exists_interpret (h : ¬ TooLarge line) :
    ∃ entered, interpret line = .ok entered ∧ (entered.command = .quit → line = quitLine) := by
  cases hmatch : matchGet line with
  | some number =>
    rw [interpret_some hmatch]
    cases hnumber : stoi number with
    | ok n => exact ⟨.get n, rfl, nofun⟩
    | error e => exact absurd ⟨number, hmatch, fun n hn ↦ by rw [hnumber] at hn; cases hn⟩ h
  | none =>
    rw [interpret_none hmatch]
    split
    · exact ⟨.list, rfl, nofun⟩
    split
    · exact ⟨.listl, rfl, nofun⟩
    split
    · exact ⟨.help, rfl, nofun⟩
    split
    · exact ⟨.invalid, rfl, nofun⟩
    · rename_i hquit
      exact ⟨.quit, rfl, fun _ ↦ not_not.mp hquit⟩

theorem quits_quitLine (ls : List StdString) : Quits (quitLine :: ls) :=
  ⟨[], ls, rfl, List.not_mem_nil, nofun⟩

theorem Quits.cons (h : Quits ls) (hquit : line ≠ quitLine) (hsmall : ¬ TooLarge line) :
    Quits (line :: ls) := by
  obtain ⟨before, rest, rfl, hbefore, hall⟩ := h
  refine ⟨line :: before, rest, rfl, ?_, List.forall_mem_cons.mpr ⟨hsmall, hall⟩⟩
  rw [List.mem_cons, not_or]
  exact ⟨hquit.symm, hbefore⟩

/-- A line that comes again changes nothing. -/
theorem Quits.of_append (h : Quits (ls ++ [line])) (hline : line = [] ∨ line ∈ ls) : Quits ls := by
  obtain ⟨before, rest, heq, hbefore, hall⟩ := h
  rcases List.eq_nil_or_concat rest with rfl | ⟨rest, last, rfl⟩
  · obtain ⟨rfl, hlast⟩ := List.append_inj' heq rfl
    obtain rfl : line = quitLine := (List.cons.inj hlast).1
    exact (hline.resolve_left nofun |> hbefore).elim
  · rw [List.concat_eq_append, ← List.cons_append, ← List.append_assoc] at heq
    exact ⟨before, rest, (List.append_inj' heq rfl).1, hbefore, hall⟩

theorem upToQuit_append {before : List StdString} (h : quitLine ∉ before) (rest : List StdString) :
    upToQuit (before ++ quitLine :: rest) = before ++ [quitLine] := by
  induction before with
  | nil => rw [List.nil_append, upToQuit, if_pos rfl, List.nil_append]
  | cons line before ih =>
    rw [List.mem_cons, not_or] at h
    rw [List.cons_append, upToQuit, if_neg fun heq ↦ h.1 heq.symm, ih h.2, List.cons_append]

end

/-! ## Rounds -/

namespace Shell

variable {fetch : Fetch} {world : ℕ → Fetch} {s : Shell} {entered : Entered}

/-- What a round notes of a line. -/
def noted (g : IStream UInt8 × StdString) : Option StdString := if g.1.fail then none else some g.2

/-- `std::stoi` throws. -/
theorem next_error (hs : s.status = .looping) {e : RFCManager.Exception}
    (h : interpret (s.stdin.getline 10 s.input).2 = .error e) :
    (s.next fetch).status = .terminated (.stoi e) := by
  simp only [next, if_pos hs, round, h]

/-- What is entered is done. -/
theorem next_ok (hs : s.status = .looping) (hd : Listable s.files)
    (h : interpret (s.stdin.getline 10 s.input).2 = .ok entered) : s.next fetch =
      ⟨(s.stdin.getline 10 s.input).1, (s.stdin.getline 10 s.input).2,
        (fetch.outcomeOfRound entered.command s.files).state.files,
        s.rounds ++ [⟨noted (s.stdin.getline 10 s.input), some entered,
          (fetch.outcomeOfRound entered.command s.files).sent⟩],
        .ofResult (fetch.outcomeOfRound entered.command s.files).result⟩ := by
  have hlisted : (if entered = .listl then listRfcsLocal s.files else .ok ()) = .ok () := by
    split
    · obtain ⟨l, hl⟩ := hd
      rw [listRfcsLocal, hl]
      rfl
    · rfl
  simp only [next, if_pos hs, round, h, hlisted]
  rfl

/-- `main` stays where it is when it has left the loop. -/
theorem after_of_ne (h : s.status ≠ .looping) (k : ℕ) : s.after world k = s := by
  induction k generalizing world with
  | zero => rfl
  | succ k ih => rw [after, next, if_neg h, ih]

/-- The network commands return. -/
def Undisturbed (world : ℕ → Fetch) (s : Shell) : Prop :=
  ∀ k e, (s.after world k).status ≠ .terminated (.network e)

theorem Undisturbed.next (h : s.Undisturbed world) :
    (s.next (world 0)).Undisturbed fun i ↦ world (i + 1) := fun k ↦ h (k + 1)

/-- **The loop goes on**, unless it is asked to quit. -/
theorem next_looping (hs : s.status = .looping) (hd : Listable s.files)
    (h : interpret (s.stdin.getline 10 s.input).2 = .ok entered) (hquit : entered.command ≠ .quit)
    (hnet : s.Undisturbed world) : ∃ files sent, Listable files ∧ Whole sent ∧ s.next (world 0) =
      ⟨(s.stdin.getline 10 s.input).1, (s.stdin.getline 10 s.input).2, files,
        s.rounds ++ [⟨noted (s.stdin.getline 10 s.input), some entered, sent⟩], .looping⟩ := by
  have hnext : s.next (world 0) = _ := next_ok hs hd h
  obtain ⟨hfiles, hresult⟩ := (world 0).goesOn_outcomeOfRound hquit hd
  rcases hresult with ⟨hresult, hsent⟩ | ⟨e, hresult⟩
  · rw [hresult] at hnext
    exact ⟨_, _, hfiles, hsent, hnext⟩
  · rw [hresult] at hnext
    exact absurd (congrArg status hnext) (hnet 1 e)

/-- `quit` sends DISCONNECT, and is the end. -/
theorem next_quit (hs : s.status = .looping) (hd : Listable s.files)
    (h : (s.stdin.getline 10 s.input).2 = quitLine) : s.next fetch =
      ⟨(s.stdin.getline 10 s.input).1, quitLine, s.files,
        s.rounds ++ [⟨noted (s.stdin.getline 10 s.input), some .quit,
          [wireInt P2SMessage.disconnect.toInt]⟩], .returned 0⟩ := by
  have hcommand : Entered.quit.command = .quit := rfl
  rw [next_ok hs hd (h ▸ interpret_quitLine), h, hcommand, Fetch.outcomeOfRound_quit]
  rfl

/-! ## Runs -/

/-- The rounds have obeyed these lines. -/
structure Obeys (ls : List StdString) (rounds : List Round) : Prop where
  reads : rounds.map Round.read = ls.map some
  commands : rounds.map Round.command = ls.map fun line ↦ (interpret line).toOption
  whole : Whole (rounds.flatMap Round.sent)

theorem Obeys.cons {line : StdString} {sent : List Frame} {ls : List StdString} {rounds : List Round}
    (h : Obeys ls rounds) (hline : interpret line = .ok entered) (hsent : Whole sent) :
    Obeys (line :: ls) (⟨some line, some entered, sent⟩ :: rounds) := by
  refine ⟨?_, ?_, hsent.append h.whole⟩
  · rw [List.map_cons, List.map_cons, h.reads]
  · rw [List.map_cons, List.map_cons, h.commands, hline]
    rfl

/-- **Lines are obeyed one after the other**, as long as none is `quit` and no number is too large. -/
theorem obeys_lines {ls more : List StdString} (hs : s.status = .looping) (hd : Listable s.files)
    (hlines : s.stdin.upcoming 10 = ls ++ more) (hquit : quitLine ∉ ls) (hsmall : ∀ line ∈ ls, ¬ TooLarge line)
    (hnet : s.Undisturbed world) :
    ∃ (t : Shell) (world' : ℕ → Fetch), (∀ k, s.after world (ls.length + k) = t.after world' k) ∧
      t.status = .looping ∧ Listable t.files ∧ t.stdin.upcoming 10 = more ∧
      ∃ rounds, t.rounds = s.rounds ++ rounds ∧ Obeys ls rounds := by
  induction ls generalizing s world with
  | nil =>
    refine ⟨s, world, fun k ↦ by rw [List.length_nil, Nat.zero_add], hs, hd, hlines, [], ?_, rfl, rfl, whole_nil⟩
    rw [List.append_nil]
  | cons line ls ih =>
    rw [List.mem_cons, not_or] at hquit
    rw [List.forall_mem_cons] at hsmall
    obtain ⟨entered, hentered, hcommand⟩ := exists_interpret hsmall.1
    obtain ⟨hread, hfail, hmore, -⟩ := IStream.getline_upcoming hlines s.input
    obtain ⟨files, sent, hfiles, hsent, hnext⟩ := next_looping hs hd (hread ▸ hentered)
      (fun heq ↦ hquit.1 (hcommand heq).symm) hnet
    have hnoted : noted (s.stdin.getline 10 s.input) = some line := by
      rw [noted, hfail, if_neg Bool.false_ne_true, hread]
    obtain ⟨t, world', hafter, ht, htd, hrest, rounds, hrounds, hobeys⟩ := ih
      (s := s.next (world 0)) (by rw [hnext]) (by rw [hnext]; exact hfiles) (by rw [hnext]; exact hmore)
      hquit.2 hsmall.2 hnet.next
    refine ⟨t, world', fun k ↦ ?_, ht, htd, hrest, ⟨some line, some entered, sent⟩ :: rounds, ?_,
      hobeys.cons hentered hsent⟩
    · rw [List.length_cons, Nat.add_right_comm, after, hafter]
    · rw [hrounds, hnext, hnoted, List.append_assoc, List.singleton_append]

/-- **The loop is left only by `quit`**: a line, or what the string holds when there are no more. -/
theorem quits_of_returned {k : ℕ} {code : Int32} (hs : s.status = .looping) (hd : Listable s.files)
    (hnet : s.Undisturbed world) (h : (s.after world k).status = .returned code) :
    Quits (s.stdin.upcoming 10 ++ [s.stdin.stale 10 s.input]) := by
  induction k generalizing s world with
  | zero =>
    rw [after, hs] at h
    cases h
  | succ k ih =>
    rw [after] at h
    -- What is read is the next line, or else what is read again and again.
    obtain ⟨ls, hsplit, hleft⟩ := IStream.getline_cases 10 s.stdin s.input
    generalize hread : (s.stdin.getline 10 s.input).2 = line at hsplit hleft
    rw [hsplit]
    by_cases hlarge : TooLarge line
    · obtain ⟨e, he⟩ := interpret_of_tooLarge hlarge
      have hstatus : (s.next (world 0)).status = .terminated (.stoi e) := next_error hs (hread ▸ he)
      rw [after_of_ne (by rw [hstatus]; nofun), hstatus] at h
      cases h
    by_cases hquit : line = quitLine
    · rw [hquit]
      exact quits_quitLine ls
    obtain ⟨entered, hentered, hcommand⟩ := exists_interpret hlarge
    obtain ⟨files, sent, hfiles, -, hnext⟩ := next_looping hs hd (hread ▸ hentered)
      (fun heq ↦ hquit (hcommand heq)) hnet
    have hih := ih (s := s.next (world 0)) (by rw [hnext]) (by rw [hnext]; exact hfiles) hnet.next h
    rw [hnext, hread] at hih
    rcases hleft with hleft | ⟨rfl, hleft⟩
    · rw [hleft] at hih
      exact hih.cons hquit hlarge
    · rwa [hleft] at hih

/-- `quit` is read, after whole requests. -/
theorem signedOff_next {bytes : StdString} {before rest : List StdString} {rounds : List Round}
    (hlines : lines 10 bytes = before ++ quitLine :: rest) (hbefore : quitLine ∉ before)
    (hs : s.status = .looping) (hd : Listable s.files) (hrest : s.stdin.upcoming 10 = quitLine :: rest)
    (hrounds : s.rounds = rounds) (hobeys : Obeys before rounds) : (s.next fetch).SignedOff bytes := by
  obtain ⟨hread, hfail, -⟩ := IStream.getline_upcoming hrest s.input
  have hnoted : noted (s.stdin.getline 10 s.input) = some quitLine := by
    rw [noted, hfail, if_neg Bool.false_ne_true, hread]
  rw [next_quit hs hd hread, hnoted, hrounds]
  have hall : upToQuit (lines 10 bytes) = before ++ [quitLine] := by rw [hlines, upToQuit_append hbefore]
  have hsent : sent ⟨(s.stdin.getline 10 s.input).1, quitLine, s.files,
      rounds ++ [⟨some quitLine, some .quit, [wireInt P2SMessage.disconnect.toInt]⟩], .returned 0⟩ =
      rounds.flatMap Round.sent ++ [wireInt P2SMessage.disconnect.toInt] := by
    rw [sent, List.flatMap_append, List.flatMap_singleton]
  refine ⟨rfl, ?_, ?_, _, hsent, ?_, hobeys.whole.1⟩
  · rw [hall, List.map_append, hobeys.reads, List.map_append]
    rfl
  · rw [hall, List.map_append, hobeys.commands, List.map_append, List.map_singleton, List.map_singleton,
      interpret_quitLine]
    rfl
  · rw [hsent, hobeys.whole.requests_disconnect]

end Shell

/-- **The client takes its leave of the index**, having obeyed each line once, exactly if some line is `quit` and
no number before it is too large: for every directory that could be listed when the client started, every input,
and whatever the client receives, as long as its network commands return. -/
theorem signsOff_iff (world : ℕ → Fetch) {d : Directory} {rfcs : List Int32} (hd : getRfcs d = .ok rfcs)
    (bytes : StdString)
    (hnet : ∀ k e, ((Shell.start bytes d).after world k).status ≠ .terminated (.network e)) :
    SignsOff world d bytes ↔ Quits (lines 10 bytes) := by
  constructor
  · rintro ⟨k, h⟩
    refine (Shell.quits_of_returned rfl ⟨rfcs, hd⟩ hnet h.returned).of_append ?_
    by_cases hnil : (IStream.ofList bytes).stale 10 [] = []
    · exact .inl hnil
    · exact .inr (IStream.stale_mem (IStream.good_ofList bytes) hnil)
  · rintro ⟨before, rest, hlines, hbefore, hsmall⟩
    obtain ⟨t, world', hafter, ht, htd, hrest, rounds, hrounds, hobeys⟩ :=
      Shell.obeys_lines (s := Shell.start bytes d) rfl ⟨rfcs, hd⟩ hlines hbefore hsmall hnet
    refine ⟨before.length + 1, ?_⟩
    rw [hafter]
    exact Shell.signedOff_next hlines hbefore ht htd hrest hrounds hobeys

/-- What a client receives to which the index offers a peer, again and again. -/
def generous (_ : ℕ) : Fetch := Fetch.offered fun _ ↦ true

/-- The line `get 7`, and then `quit` without an end of line. -/
def getAndQuit : StdString := [103, 101, 116, 32, 55, 10] ++ quitLine

/-- `get 7` is obeyed, and then the client takes its leave. -/
theorem signsOff_getAndQuit : SignsOff generous ∅ getAndQuit := by
  have hfirst : ((Shell.start getAndQuit ∅).after generous 1).status = .looping := by decide +kernel
  have hsecond : ((Shell.start getAndQuit ∅).after generous 2).status = .returned 0 := by decide +kernel
  refine (signsOff_iff generous (show getRfcs ∅ = .ok [] from rfl) getAndQuit fun k e ↦ ?_).mpr
    ⟨[[103, 101, 116, 32, 55]], [], by decide, by decide, ?_⟩
  · match k with
    | 0 => exact nofun
    | 1 =>
      rw [hfirst]
      exact nofun
    | k + 2 =>
      have hafter : (Shell.start getAndQuit ∅).after generous (k + 2) = _ :=
        Shell.after_of_ne (s := (Shell.start getAndQuit ∅).after generous 2) (by rw [hsecond]; nofun) k
      rw [hafter, hsecond]
      exact nofun
  · rw [List.forall_mem_singleton]
    exact not_tooLarge (show interpret _ = .ok (.get 7) by decide)

/-! ## Inputs that are not left -/

namespace Shell

variable {world : ℕ → Fetch} {s : Shell}

/-- **The loop goes on without end** where no line is a command to the session. -/
theorem looping_forever (hs : s.status = .looping) (hd : Listable s.files)
    (h : ∀ line ∈ s.stdin.upcoming 10 ++ [s.stdin.stale 10 s.input],
      ∃ entered, interpret line = .ok entered ∧ entered.command = .other) (k : ℕ) :
    (s.after world k).status = .looping := by
  induction k generalizing s world with
  | zero => exact hs
  | succ k ih =>
    obtain ⟨ls, hsplit, hleft⟩ := IStream.getline_cases 10 s.stdin s.input
    rw [hsplit, List.forall_mem_cons] at h
    obtain ⟨⟨entered, hentered, hother⟩, hrest⟩ := h
    have hnext : s.next (world 0) = _ := next_ok hs hd hentered
    rw [hother] at hnext
    rw [after, hnext]
    refine ih rfl hd ?_
    rcases hleft with hleft | ⟨-, hleft⟩
    · rwa [hleft]
    · rw [hleft, List.forall_mem_singleton]
      exact ⟨entered, hentered, hother⟩

theorem not_signsOff_of_looping {d : Directory} {bytes : StdString}
    (h : ∀ k, ((start bytes d).after world k).status = .looping) : ¬ SignsOff world d bytes := by
  rintro ⟨k, hend⟩
  have hstatus := (h k).symm.trans hend.returned
  cases hstatus

end Shell

/-- `listl`, without an end of line. -/
def listlOnly : StdString := [108, 105, 115, 116, 108]

/-- `get 2147483648`, and then `quit`. -/
def getTooLarge : StdString :=
  [103, 101, 116, 32, 50, 49, 52, 55, 52, 56, 51, 54, 52, 56, 10] ++ quitLine

/-- **The end of the input is no end**: without any input the loop goes on for ever, and `listl` is obeyed again
and again.  A number that is too large ends the client without DISCONNECT. -/
theorem not_signsOff :
    ((∀ k, ((Shell.start [] ∅).after generous k).status = .looping) ∧ ¬ SignsOff generous ∅ []) ∧
    ((∀ k, ((Shell.start listlOnly ∅).after generous k).status = .looping) ∧
      ((Shell.start listlOnly ∅).after generous 2).rounds.map (fun r ↦ (r.read, r.command)) =
        [(some listlOnly, some .listl), (none, some .listl)] ∧ ¬ SignsOff generous ∅ listlOnly) ∧
    ((∀ k, ((Shell.start getTooLarge ∅).after generous (k + 1)).status =
        .terminated (.stoi .outOfRange) ∧ ((Shell.start getTooLarge ∅).after generous (k + 1)).sent = []) ∧
      ¬ SignsOff generous ∅ getTooLarge) := by
  have hnothing : ∀ k, ((Shell.start [] ∅).after generous k).status = .looping :=
    Shell.looping_forever rfl ⟨[], rfl⟩ <| List.forall_mem_singleton.mpr
      ⟨.invalid, show interpret [] = .ok .invalid by decide, rfl⟩
  have hlistl : ∀ k, ((Shell.start listlOnly ∅).after generous k).status = .looping := by
    refine Shell.looping_forever rfl ⟨[], rfl⟩ fun line hline ↦ ⟨.listl, ?_, rfl⟩
    obtain rfl : line = listlOnly := by simpa using (show line ∈ [listlOnly, listlOnly] from hline)
    decide
  have hlarge : ((Shell.start getTooLarge ∅).after generous 1).status = .terminated (.stoi .outOfRange) := by
    decide +kernel
  have hafter : ∀ k, (Shell.start getTooLarge ∅).after generous (k + 1) =
      (Shell.start getTooLarge ∅).after generous 1 := fun k ↦
    Shell.after_of_ne (s := (Shell.start getTooLarge ∅).after generous 1) (by rw [hlarge]; nofun) k
  refine ⟨⟨hnothing, Shell.not_signsOff_of_looping hnothing⟩,
    ⟨hlistl, by decide +kernel, Shell.not_signsOff_of_looping hlistl⟩, fun k ↦ ?_, ?_⟩
  · rw [hafter]
    exact ⟨hlarge, by decide +kernel⟩
  · rintro ⟨k, hend⟩
    have hreturned := hend.returned
    cases k with
    | zero => cases hreturned
    | succ k =>
      rw [hafter, hlarge] at hreturned
      cases hreturned

end RfcNet
