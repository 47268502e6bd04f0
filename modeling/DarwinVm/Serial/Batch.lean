import DarwinVm.Lib.System
import DarwinVm.Serial.Confinement
import DarwinVm.Serial.Wait

/-!
# A batch under one prompt

`checked_batch` of `tools/serial.py` sends the lines of a batch after a prompt, waits for all of their
markers, and begins again when they do not come. Here it runs against a guest: the console may lose
any byte that is sent, and the guest's output comes whole, but as late as it likes. A step of the
host, of the console or of the guest is a label of one system (`checkedBatch`).

What the shell does with a line is known when all commands of the line are some that a part line has,
damaged or not (`lineEffects`). With any other line the shell does what the label says. A line that
arrives whole writes its part and reads it (`exec_wire`).
-/

namespace DarwinVm.Serial.Batch

/-- What a command does to the file with a name, or with it. -/
inductive Effect
  /-- The file gets a content, or is removed. -/
  | write (name : Text) (content : Option Bytes)
  /-- `/bin/cksum name`. -/
  | sum (name : Text)
  deriving DecidableEq

/-- What a simple command does, if it is one that a part line has. -/
def effects (s : Shell.Simple) : Option (List Effect) :=
  match s.argv, s.targets with
  | command :: args, [] =>
    if command = ":".toList then some []
    else if command = "/bin/cksum".toList ∧ args.length = 1 ∧ args.all (·.head? ≠ some '-') then
      some (args.map .sum)
    else none
  | [command, format, t], [name] =>
    if command = "printf".toList ∧ format = "%s".toList then some [.write name (some (utf8 t))] else none
  | _, _ => none

/-- What a line does, if all of its commands are ones that a part line has. -/
def lineEffects (shell : Shell.Guest) (line : Text) : Option (List Effect) := do
  let run ← Shell.read shell line
  let es ← run.mapM effects
  some es.flatten

/-- Where `checked_batch` is, with the number of the attempt and what `recv` did in the wait. -/
inductive Phase
  /-- In `wait_for_text` of `wait_for_prompt`. -/
  | prompting (attempt : ℕ) (es : List Recv)
  /-- In `drain` of `wait_for_prompt`. -/
  | settling (attempt : ℕ)
  /-- In `wait_for_markers`. -/
  | marking (attempt : ℕ) (es : List Recv)
  /-- In `drain`, after the lines were interrupted. -/
  | recovering (attempt : ℕ)
  /-- In `drain`, after all markers were seen. -/
  | draining (es : List Recv)
  | returned (es : List Recv)
  | exited

/-- The host, the console and the guest. -/
structure State where
  phase : Phase
  /-- What was sent and is neither lost nor arrived. -/
  wire : Bytes
  /-- What the guest's terminal holds of a line. -/
  typed : Bytes
  /-- The lines of a command that is not complete. -/
  pending : Bytes
  /-- What the lines that were read have still to do. -/
  todo : List Effect
  files : Text → Option Bytes
  /-- What the guest printed and the host did not receive. -/
  flight : Bytes

/-- A step of the host, of the console or of the guest. -/
inductive Label
  /-- The host calls `recv`. -/
  | recv (e : Recv)
  /-- A wait or a drain of the host is over. -/
  | timeout
  /-- The console loses a byte. -/
  | lose
  /-- A byte arrives. A line of unknown commands is part of a longer one, or does what is given. -/
  | arrive (other : Option (List Effect))
  /-- The shell does the next thing. -/
  | run
  /-- The guest prints anything. -/
  | say (text : Bytes)

/-- `send_command_batch`. -/
def sendCommandBatch (commands : List Text) : Bytes := commands.flatMap wire

/-- The line that `/bin/cksum` prints for a name. -/
def sumLine (cksum : Bytes → UInt32) (name : Text) (content : Bytes) : Bytes :=
  utf8 (decimal (cksum content).toNat ++ ' ' :: decimal content.length ++ ' ' :: name ++ ['\r', '\n'])

/-! ## The host -/

section

variable (search : Text → Bool) (entries : List Entry) (attempts : ℕ)

/-- `wait_for_prompt`, in an attempt. -/
def State.prompt (s : State) (attempt : ℕ) : State :=
  { s with phase := .prompting attempt [], wire := s.wire ++ [10, 10] }

/-- The next attempt, or `sys.exit` after the last one. -/
def State.next (s : State) (attempt : ℕ) : State :=
  if attempt = attempts then { s with phase := .exited } else s.prompt (attempt + 1)

/-- The lines are sent. -/
def State.submit (s : State) (attempt : ℕ) : State :=
  { s with
    phase := .marking attempt []
    wire := s.wire ++ sendCommandBatch (entries.map (·.command)) }

/-- The markers did not come. -/
def State.recover (s : State) (attempt : ℕ) : State :=
  if attempt = attempts then { s with phase := .exited }
  else { s with phase := .recovering attempt, wire := s.wire ++ [3, 10] }

/-- `recv` returns no byte or raises an error. -/
def ends : Recv → Bool
  | .data chunk => chunk = []
  | .blocked => false
  | .reset => true

/-- What is still in flight after `recv`. -/
def rest (flight : Bytes) : Recv → Option Bytes
  | .data chunk => if chunk <+: flight ∧ chunk.length ≤ 65536 then some (flight.drop chunk.length) else none
  | _ => some flight

/-- The host goes on after `recv`. -/
def State.receive (s : State) (e : Recv) : Option State :=
  match s.phase with
  | .prompting attempt es =>
    some (if waitForText search (es ++ [e]) then { s with phase := .settling attempt }
      else if ends e then s.next attempts attempt
      else { s with phase := .prompting attempt (es ++ [e]) })
  | .settling _ => some s
  | .marking attempt es =>
    some (if waitForMarkers (entries.map (·.marker)) (es ++ [e]) then
        { s with phase := .draining (es ++ [e]) }
      else if ends e then s.recover attempts attempt
      else { s with phase := .marking attempt (es ++ [e]) })
  | .recovering _ => some s
  | .draining es => some { s with phase := .draining (es ++ [e]) }
  | .returned _ | .exited => none

/-- The host goes on after a wait or a drain. -/
def State.timeout (s : State) : Option State :=
  match s.phase with
  | .prompting attempt _ => some (s.next attempts attempt)
  | .settling attempt => some (s.submit entries attempt)
  | .marking attempt _ => some (s.recover attempts attempt)
  | .recovering attempt => some (s.prompt (attempt + 1))
  | .draining es => some { s with phase := .returned es }
  | .returned _ | .exited => none

end

/-! ## The guest -/

section

-- The file that a name leads to.
variable (shell : Shell.Guest) (cksum : Bytes → UInt32) (resolve : Text → Text)

/-- The shell reads a line. -/
def State.enter (s : State) (other : Option (List Effect)) : State :=
  let line := s.pending ++ s.typed ++ [10]
  match (lineEffects shell (utf8DecodeReplace line)).or other with
  | some es => { s with typed := [], pending := [], todo := s.todo ++ es }
  | none => { s with typed := [], pending := line }

/-- A byte arrives. `^C` drops what was typed and what was not done yet. -/
def State.type (s : State) (b : UInt8) (other : Option (List Effect)) : State :=
  if b = 3 then { s with typed := [], pending := [], todo := [] }
  else if b = 10 then s.enter shell other
  else { s with typed := s.typed ++ [b] }

/-- What an effect prints. -/
def printed (s : State) : Effect → Bytes
  | .write _ _ => []
  | .sum name => match s.files (resolve name) with
    | some content => sumLine cksum name content
    | none => []

/-- The files after an effect. -/
def wrote (s : State) : Effect → Text → Option Bytes
  | .write name content => Function.update s.files (resolve name) content
  | .sum _ => s.files

/-- The shell does the next thing. -/
def State.perform (s : State) : Option State :=
  match s.todo with
  | [] => none
  | e :: es => some
    { s with
      todo := es
      files := wrote resolve s e
      flight := s.flight ++ printed cksum resolve s e }

end

section

variable (shell : Shell.Guest) (cksum : Bytes → UInt32) (resolve : Text → Text)
variable (search : Text → Bool) (entries : List Entry) (attempts : ℕ)

/-- A step. -/
def step (s : State) : Label → Option State
  | .recv e => (rest s.flight e).bind fun flight =>
      { s with flight }.receive search entries attempts e
  | .timeout => s.timeout entries attempts
  | .lose => match s.wire with
    | [] => none
    | _ :: wire => some { s with wire }
  | .arrive other => match s.wire with
    | [] => none
    | b :: wire => some ({ s with wire }.type shell b other)
  | .run => s.perform cksum resolve
  | .say text => some { s with flight := s.flight ++ text }

/-- `checked_batch`, from a state of the console and the guest. -/
def checkedBatch (start : State) : System State Label where
  init := if attempts = 0 then { start with phase := .exited } else start.prompt 1
  step := step shell cksum resolve search entries attempts

end

/-! ## The effects -/

section

variable {cksum : Bytes → UInt32} {resolve : Text → Text} {s : State} {name : Text}

theorem wrote_write (content : Option Bytes) :
    wrote resolve s (.write name content) = Function.update s.files (resolve name) content := rfl

theorem printed_some {content : Bytes} (h : s.files (resolve name) = some content) :
    printed cksum resolve s (.sum name) = sumLine cksum name content := by
  unfold printed
  dsimp only
  rw [h]

theorem printed_none (h : s.files (resolve name) = none) :
    printed cksum resolve s (.sum name) = [] := by
  unfold printed
  dsimp only
  rw [h]

end

/-! ## A line that arrives -/

section

variable {shell : Shell.Guest} {cksum : Bytes → UInt32} {resolve : Text → Text}
variable {search : Text → Bool} {entries : List Entry} {attempts : ℕ} {start : State}

/-- A part of a safe path is at an absolute path. -/
theorem head_partPath {path : Text} (hsafe : remotePathIsSafe path = true) (number : ℕ) :
    (partPath path number).head? = some '/' := by
  obtain ⟨⟨root, hroot, name, -, rfl⟩, -⟩ := remotePathIsSafe_iff.mp hsafe
  have hslash : ∀ root ∈ roots, root.dropLast.head? = some '/' := by decide
  obtain ⟨rest, hrest⟩ := prefix_dirname hroot name
  rw [partPath, partDir, ← hrest, List.append_assoc, List.append_assoc, List.head?_append,
    hslash root hroot]
  rfl

/-- A part line does to the part what it says. -/
theorem lineEffects_part {path chunk : Text} (hsafe : remotePathIsSafe path = true)
    (hplain : Shell.Plain path) (hchunk : '\x27' ∉ chunk) (number : ℕ) :
    lineEffects shell (": :; ".toList ++ partCommand path chunk number ++ ['\n']) =
      some [.write (partPath path number) (some (utf8 chunk)), .sum (partPath path number)] := by
  have hguard : effects guard = some [] := by decide
  have hwrite : effects ⟨["printf".toList, "%s".toList, chunk], [partPath path number]⟩ =
      some [.write (partPath path number) (some (utf8 chunk))] := rfl
  have hsum : effects ⟨["/bin/cksum".toList, partPath path number], []⟩ =
      some [.sum (partPath path number)] := by
    have hname : "/bin/cksum".toList ≠ ":".toList := by decide
    have hoption : [partPath path number].all (·.head? ≠ some '-') = true := by
      rw [List.all_cons, head_partPath hsafe]
      rfl
    unfold effects
    dsimp only
    rw [if_neg hname, if_pos ⟨rfl, rfl, hoption⟩]
    rfl
  unfold lineEffects
  rw [read_part (plainWords hsafe hplain) hchunk number]
  simp only [Option.bind_eq_bind, Option.bind_some, List.mapM_cons, List.mapM_nil, hguard, hwrite,
    hsum, Option.pure_def]
  rfl

/-- The bytes of a line arrive. -/
theorem exec_type : ∀ {t wire : Bytes} {s : State}, (∀ b ∈ t, b ≠ 3 ∧ b ≠ 10) → s.wire = t ++ wire →
    (checkedBatch shell cksum resolve search entries attempts start).exec s
      (List.replicate t.length (.arrive none)) = some { s with wire, typed := s.typed ++ t }
  | [], wire, s, _, hw => by
    obtain ⟨phase, _, typed, pending, todo, files, flight⟩ := s
    obtain rfl := hw
    rw [List.append_nil]
    rfl
  | b :: t, wire, s, hb, hw => by
    obtain ⟨phase, _, typed, pending, todo, files, flight⟩ := s
    obtain rfl := hw
    have h := hb b (List.mem_cons_self ..)
    have hstep : (checkedBatch shell cksum resolve search entries attempts start).step
        ⟨phase, b :: t ++ wire, typed, pending, todo, files, flight⟩ (.arrive none) =
          some ⟨phase, t ++ wire, typed ++ [b], pending, todo, files, flight⟩ := by
      unfold checkedBatch step State.type
      rw [List.cons_append]
      dsimp only
      rw [if_neg h.1, if_neg h.2]
    have hrest := @exec_type t wire ⟨phase, t ++ wire, typed ++ [b], pending, todo, files, flight⟩
      (fun c hc => hb c (List.mem_cons_of_mem b hc)) rfl
    rw [List.append_assoc] at hrest
    rw [List.length_cons, List.replicate_succ, System.exec_cons, hstep, Option.bind_some, hrest]
    rfl

/-- The bytes of a line are lost. -/
theorem exec_lose : ∀ {t wire : Bytes} {s : State}, s.wire = t ++ wire →
    (checkedBatch shell cksum resolve search entries attempts start).exec s
      (List.replicate t.length .lose) = some { s with wire }
  | [], wire, s, hw => by
    obtain ⟨phase, _, typed, pending, todo, files, flight⟩ := s
    obtain rfl := hw
    rfl
  | b :: t, wire, s, hw => by
    obtain ⟨phase, _, typed, pending, todo, files, flight⟩ := s
    obtain rfl := hw
    exact @exec_lose t wire ⟨phase, t ++ wire, typed, pending, todo, files, flight⟩ rfl

/-- A line arrives at a command boundary. -/
theorem exec_line {line wire : Bytes} {es : List Effect} {s : State}
    (hline : ∀ b ∈ line, b ≠ 3 ∧ b ≠ 10) (hwire : s.wire = line ++ [10] ++ wire)
    (htyped : s.typed = []) (hpending : s.pending = [])
    (hes : lineEffects shell (utf8DecodeReplace (line ++ [10])) = some es) :
    (checkedBatch shell cksum resolve search entries attempts start).exec s
      (List.replicate (line.length + 1) (.arrive none)) =
        some { s with wire, todo := s.todo ++ es } := by
  obtain ⟨phase, _, typed, pending, todo, files, flight⟩ := s
  obtain rfl := hwire
  obtain rfl := htyped
  obtain rfl := hpending
  have htype := @exec_type shell cksum resolve search entries attempts start line ([10] ++ wire)
    ⟨phase, line ++ [10] ++ wire, [], [], todo, files, flight⟩ hline (List.append_assoc ..)
  have hstep : (checkedBatch shell cksum resolve search entries attempts start).step
      ⟨phase, [10] ++ wire, [] ++ line, [], todo, files, flight⟩ (.arrive none) =
        some ⟨phase, wire, [], [], todo ++ es, files, flight⟩ := by
    unfold checkedBatch step State.type State.enter
    dsimp only [List.cons_append, List.nil_append]
    rw [if_neg (by decide), if_pos rfl, hes]
    rfl
  rw [List.replicate_add, System.exec_append, htype, Option.bind_some, List.replicate_one,
    System.exec_cons, hstep]
  rfl

/-- A part line that arrives whole at a command boundary writes the part and reads it. -/
theorem exec_wire {path chunk : Text} (hsafe : remotePathIsSafe path = true)
    (hplain : Shell.Plain path) (hchunk : '\x27' ∉ chunk) {number : ℕ} {left : Bytes} {s : State}
    (hline : ∀ c ∈ ": :; ".toList ++ partCommand path chunk number, c.toNat ≠ 3 ∧ c.toNat ≠ 10)
    (hwire : s.wire = wire (partCommand path chunk number) ++ left) (htyped : s.typed = [])
    (hpending : s.pending = []) :
    (checkedBatch shell cksum resolve search entries attempts start).exec s
      (List.replicate (wire (partCommand path chunk number)).length (.arrive none)) =
        some { s with
          wire := left
          todo := s.todo ++ [.write (partPath path number) (some (utf8 chunk)),
            .sum (partPath path number)] } := by
  have hend : wire (partCommand path chunk number) =
      utf8 (": :; ".toList ++ partCommand path chunk number) ++ [10] := List.flatMap_append
  have hbytes : ∀ b ∈ utf8 (": :; ".toList ++ partCommand path chunk number), b ≠ 3 ∧ b ≠ 10 := by
    intro b hb
    constructor
    · rintro rfl
      obtain ⟨c, hc, hval⟩ := (mem_utf8 (by decide)).mp hb
      exact (hline c hc).1 hval
    · rintro rfl
      obtain ⟨c, hc, hval⟩ := (mem_utf8 (by decide)).mp hb
      exact (hline c hc).2 hval
  have hes := @lineEffects_part shell path chunk hsafe hplain hchunk number
  rw [← utf8DecodeReplace_utf8 (": :; ".toList ++ partCommand path chunk number ++ ['\n']), ← wire,
    hend] at hes
  rw [hend, List.length_append, List.length_singleton]
  rw [hend] at hwire
  exact exec_line hbytes hwire htyped hpending hes

end

end DarwinVm.Serial.Batch
