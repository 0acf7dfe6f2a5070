import OpenMesh.Net.Client
import OpenMesh.Messaging.Lifetimes

namespace OpenMesh.Cli.Loops

open OpenMesh.Core.Buffers OpenMesh.Core.Hex OpenMesh.Crypto.Primitives
open OpenMesh.Crypto.Reference OpenMesh.Library.Runs OpenMesh.Protocol.Envelope
open OpenMesh.Net.Transport OpenMesh.Net.Client OpenMesh.Storage.Database
open OpenMesh.Messaging.Operations OpenMesh.Messaging.Pairs

def kDefaultAttempts : Nat := 3

inductive App where
  | chatApp | tui
  deriving DecidableEq

inductive Command where
  | quit
  | register
  | add (name pk : Bytes)
  | decide (pk : Bytes) (accept : Bool)
  | send (pk text : Bytes)
  | other

/-- Where the network thread is in its loop, and the lines that it has yet to handle. -/
inductive Task where
  | gathering
  | commands (lines : List Command)
  | registering (lines : List Command)
  | discovering (pk : Bytes) (lines : List Command)
  | polling
  | ticking
  | timing
  | beating (now : Int)
  | announcing (now : Int)
  | stopped

/-- The program, what `receive` has returned to it, and what `poll` has been handed of that. -/
structure Om where
  app : App
  engine : Engine
  sig : Option SignalingClient := none
  relay : Option Endpoint := none
  name : Bytes := []
  running : Bool := true
  lastHb : Int := 0
  lastAnn : Int := 0
  task : Task := .gathering
  returned : List Datagram := []
  handed : List Datagram := []

/-- The lines that are in the queue, and what a call of `receive` would find. -/
structure Input where
  env : Env
  takes : Bool := true
  incoming : Option Datagram := none
  lines : List Command := []

def awaits (c : SignalingClient) : Bool :=
  match c.phase with
  | .awaitHello _ | .awaitAck _ | .awaitConnect _ _ | .awaitHeartbeat => true
  | _ => false

namespace Om

def busy (o : Om) : Bool := o.sig.any (·.busy)

def awaiting (o : Om) : Bool := o.sig.any awaits

/-- The client has borrowed the socket of the engine. -/
def signal (o : Om) (event : Event) : Om :=
  match o.sig with
  | none => o
  | some c =>
    let (c', packets) := c.step event
    let socket := { sent := o.engine.socket.sent ++ packets.map fun p => (c.server, p) }
    { o with sig := some c', engine := { o.engine with socket } }

/-- Inside a call of the client: `await_packet` reads the socket, or it is time to send. -/
def wait (o : Om) (i : Input) : Om :=
  if o.awaiting then
    match i.incoming with
    | some d => { o.signal (.receive d i.takes) with returned := o.returned ++ [receive d] }
    | none => o.signal .timeout
  else o.signal (.send i.takes)

variable (C : Sodium)

def introduce (o : Om) (i : Input) (pk : Bytes) : Om :=
  match o.sig with
  | none => o
  | some c => match c.phase with
    | .discovered ⟨_, some found⟩ =>
      let (engine, active) := o.engine.connect i.env pk found
      let o := { o with engine }
      let o := match c.publicEndpoint with
        | some mine => o.signal (.sendConnect pk mine.toString i.takes)
        | none => o
      { o with engine := (o.engine.sendContactRequest C i.env pk active o.name).1 }
    | _ => o

/-- `/register` is a command of `ChatApp` alone, and the nickname is one of `Tui`. -/
def exec (o : Om) (env : Env) (lines : List Command) : Command → Om
  | .quit => { o with running := false, task := .commands lines }
  | .register =>
    if o.app = .chatApp ∧ o.sig.isSome then
      { o.signal (.registerSelf kDefaultAttempts) with task := .registering lines }
    else { o with task := .commands lines }
  | .add name pk =>
    let engine := if o.app = .tui then o.engine.setNickname pk name else o.engine
    if o.sig.isSome then
      { { o with engine }.signal (.discover pk kDefaultAttempts) with
        task := .discovering pk lines }
    else match o.relay with
      | some relay =>
        { o with
          engine := (engine.sendContactRequest C env pk relay o.name).1
          task := .commands lines }
      | none => { o with engine, task := .commands lines }
  | .decide pk accept =>
    let engine := if accept then (o.engine.acceptContact C env pk).1
      else (o.engine.rejectContact C env pk).1
    { o with engine, task := .commands lines }
  | .send pk text => { o with engine := (o.engine.send C env pk text).1, task := .commands lines }
  | .other => { o with task := .commands lines }

/-- `Tui` polls until there is nothing more, `ChatApp` once in a turn of its loop. -/
def step (o : Om) (i : Input) : Om :=
  match o.task with
  | .gathering => { o with task := .commands i.lines }
  | .commands [] => { o with task := if o.app = .tui ∨ o.running then .polling else .stopped }
  | .commands (line :: lines) => o.exec C i.env lines line
  | .registering lines => if o.busy then o.wait i else { o with task := .commands lines }
  | .discovering pk lines =>
    if o.busy then o.wait i else { o.introduce C i pk with task := .commands lines }
  | .polling =>
    let (engine, more) := o.engine.poll C i.env i.incoming
    { o with
      engine
      returned := o.returned ++ (i.incoming.map receive).toList
      handed := o.handed ++ (i.incoming.map receive).toList
      task := if o.app = .tui ∧ more then .polling else .ticking }
  | .ticking => { o with engine := o.engine.tick i.env, task := .timing }
  | .timing =>
    let now := i.env.steadyNow
    if o.sig.isSome ∧ 30000 < now - o.lastHb then
      { o.signal (.heartbeat i.takes) with task := .beating now }
    else { o with task := .announcing now }
  | .beating now => if o.busy then o.wait i else { o with lastHb := now, task := .announcing now }
  | .announcing now =>
    let task := if o.running then .gathering else .stopped
    match o.relay with
    | some relay =>
      if 20000 < now - o.lastAnn then
        { o with engine := (o.engine.announceTo i.env relay).1, lastAnn := now, task }
      else { o with task }
    | none => { o with task }
  | .stopped => o

end Om

open Om

/-- A datagram of a peer. The server leaves a field empty in all that it makes up itself: a
challenge has no source, and the answer to a lookup no destination. -/
def ofPeer (d : Datagram) : Bool :=
  match deserialize d.data with
  | none => false
  | some packet => match packet.type with
    | .contactRequest | .contactResponse | .message => true
    | .connect | .hello => packet.source ≠ [] ∧ packet.destination ≠ []
    | _ => false

/-- Of the peers' datagrams `poll` has been handed all that `receive` has returned. -/
def Delivered (o : Om) : Prop := o.returned.filter ofPeer = o.handed.filter ofPeer

/-- No datagram of a peer is there while the client awaits a packet of its server. -/
def Undisturbed (m : Om × Input) : Prop :=
  m.1.awaiting → ∀ d ∈ m.2.incoming, ¬ ofPeer (receive d)

structure AtTop (o : Om) : Prop where
  task : o.task = .gathering
  idle : o.busy = false
  returned : o.returned = []
  handed : o.handed = []

def Task.signaling : Task → Bool
  | .registering _ | .discovering _ _ | .beating _ => true
  | _ => false

variable {C : Sodium} {o o₀ : Om} {i : Input} {h : History Om Input}

theorem busy_of_awaits {c : SignalingClient} (h : awaits c) : c.busy := by
  unfold awaits at h
  unfold SignalingClient.busy
  split at h
  all_goals first | contradiction | simp [*]

theorem busy_of_awaiting (h : o.awaiting) : o.busy := by
  unfold awaiting at h
  unfold busy
  cases hsig : o.sig with
  | none =>
    rw [hsig] at h
    cases h
  | some c =>
    rw [hsig] at h
    exact busy_of_awaits h

section Signal

variable (o : Om) (event : Event)

@[simp] theorem signal_returned : (o.signal event).returned = o.returned := by
  unfold signal
  split <;> rfl

@[simp] theorem signal_handed : (o.signal event).handed = o.handed := by
  unfold signal
  split <;> rfl

@[simp] theorem signal_task : (o.signal event).task = o.task := by
  unfold signal
  split <;> rfl

@[simp] theorem signal_isSome : (o.signal event).sig.isSome = o.sig.isSome := by
  unfold signal
  split <;> next hsig => simp [hsig]

theorem signal_engine :
    (o.signal event).engine = { o.engine with socket := (o.signal event).engine.socket } := by
  unfold signal
  split <;> rfl

theorem signal_sendConnect (target info : Bytes) (takes : Bool) :
    (o.signal (.sendConnect target info takes)).sig = o.sig := by
  unfold signal
  split
  · rfl
  · next c hsig =>
    rw [hsig, SignalingClient.step]
    dsimp only
    split <;> rfl

end Signal

section Wait

variable (o : Om) (i : Input)

@[simp] theorem wait_task : (o.wait i).task = o.task := by
  unfold wait
  split
  · split <;> simp
  · simp

@[simp] theorem wait_handed : (o.wait i).handed = o.handed := by
  unfold wait
  split
  · split <;> simp
  · simp

@[simp] theorem wait_isSome : (o.wait i).sig.isSome = o.sig.isSome := by
  unfold wait
  split
  · split <;> simp
  · simp

theorem wait_returned : (o.wait i).returned =
    o.returned ++ if o.awaiting then (i.incoming.map receive).toList else [] := by
  unfold wait
  split
  · split
    · next d hd => simp [hd]
    · next hnone => simp [hnone]
  · simp

theorem wait_engine :
    (o.wait i).engine = { o.engine with socket := (o.wait i).engine.socket } := by
  unfold wait
  split
  · split <;> exact signal_engine o _
  · exact signal_engine o _

end Wait

theorem introduce_kept (o : Om) (i : Input) (pk : Bytes) :
    (o.introduce C i pk).sig = o.sig ∧ (o.introduce C i pk).returned = o.returned ∧
      (o.introduce C i pk).handed = o.handed := by
  unfold introduce
  split
  · exact ⟨rfl, rfl, rfl⟩
  · split
    · dsimp only
      split
      · exact ⟨signal_sendConnect _ _ _ _, signal_returned _ _, signal_handed _ _⟩
      · exact ⟨rfl, rfl, rfl⟩
    · exact ⟨rfl, rfl, rfl⟩

theorem exec_kept (o : Om) (env : Env) (lines : List Command) (line : Command) :
    (o.exec C env lines line).returned = o.returned ∧
      (o.exec C env lines line).handed = o.handed ∧
      (o.exec C env lines line).sig.isSome = o.sig.isSome ∧
      ((o.exec C env lines line).task.signaling ∨ (o.exec C env lines line).sig = o.sig) := by
  cases line with
  | register =>
    rw [exec]
    split
    · exact ⟨signal_returned _ _, signal_handed _ _, signal_isSome _ _, Or.inl rfl⟩
    · exact ⟨rfl, rfl, rfl, Or.inr rfl⟩
  | add name pk =>
    rw [exec]
    dsimp only
    split
    · exact ⟨signal_returned _ _, signal_handed _ _, signal_isSome _ _, Or.inl rfl⟩
    · split <;> exact ⟨rfl, rfl, rfl, Or.inr rfl⟩
  | _ => exact ⟨rfl, rfl, rfl, Or.inr rfl⟩

def Sane (o : Om) : Prop := o.busy → o.task.signaling

/-- A move polls, or goes on with a call of the client, or does not look at the socket. Then it
begins no call, or its task says so. -/
theorem step_cases (o : Om) (i : Input) :
    (o.task = .polling ∧ (o.step C i).sig = o.sig ∧
      (o.step C i).returned = o.returned ++ (i.incoming.map receive).toList ∧
      (o.step C i).handed = o.handed ++ (i.incoming.map receive).toList) ∨
    (o.task.signaling ∧ o.busy ∧ o.step C i = o.wait i) ∨
    (¬ (o.task.signaling ∧ o.busy) ∧ (o.step C i).returned = o.returned ∧
      (o.step C i).handed = o.handed ∧ (o.step C i).sig.isSome = o.sig.isSome ∧
      ((o.step C i).task.signaling ∨ (o.step C i).sig = o.sig)) := by
  unfold step
  cases htask : o.task with
  | polling => exact Or.inl ⟨rfl, rfl, rfl, rfl⟩
  | gathering | ticking | stopped => exact Or.inr (Or.inr ⟨nofun, rfl, rfl, rfl, Or.inr rfl⟩)
  | commands lines =>
    right; right
    cases lines with
    | nil => exact ⟨nofun, rfl, rfl, rfl, Or.inr rfl⟩
    | cons line lines => exact ⟨nofun, exec_kept o i.env lines line⟩
  | registering lines =>
    right
    dsimp only
    split
    · next hbusy => exact Or.inl ⟨rfl, hbusy, rfl⟩
    · next hbusy => exact Or.inr ⟨fun h => hbusy h.2, rfl, rfl, rfl, Or.inr rfl⟩
  | discovering pk lines =>
    right
    dsimp only
    split
    · next hbusy => exact Or.inl ⟨rfl, hbusy, rfl⟩
    · next hbusy =>
      obtain ⟨hsig, hreturned, hhanded⟩ := introduce_kept (C := C) o i pk
      exact Or.inr ⟨fun h => hbusy h.2, hreturned, hhanded, congrArg Option.isSome hsig, Or.inr hsig⟩
  | timing =>
    right; right
    dsimp only
    split
    · exact ⟨nofun, signal_returned _ _, signal_handed _ _, signal_isSome _ _, Or.inl rfl⟩
    · exact ⟨nofun, rfl, rfl, rfl, Or.inr rfl⟩
  | beating now =>
    right
    dsimp only
    split
    · next hbusy => exact Or.inl ⟨rfl, hbusy, rfl⟩
    · next hbusy => exact Or.inr ⟨fun h => hbusy h.2, rfl, rfl, rfl, Or.inr rfl⟩
  | announcing now =>
    right; right
    dsimp only
    split
    · split <;> exact ⟨nofun, rfl, rfl, rfl, Or.inr rfl⟩
    · exact ⟨nofun, rfl, rfl, rfl, Or.inr rfl⟩

theorem step_sane (sane : Sane o) (i : Input) : Sane (o.step C i) := by
  intro hbusy
  obtain ⟨htask, hsig, -⟩ | ⟨htask, -, hwait⟩ | ⟨hquiet, -, -, -, hbegins | hsig⟩ :=
    step_cases (C := C) o i
  · rw [busy, hsig] at hbusy
    have := sane hbusy
    rw [htask] at this
    cases this
  · rw [hwait, wait_task]
    exact htask
  · exact hbegins
  · rw [busy, hsig] at hbusy
    exact absurd ⟨sane hbusy, hbusy⟩ hquiet

theorem step_isSome (o : Om) (i : Input) : (o.step C i).sig.isSome = o.sig.isSome := by
  obtain ⟨-, hsig, -⟩ | ⟨-, -, hwait⟩ | ⟨-, -, -, hsome, -⟩ := step_cases (C := C) o i
  · exact congrArg Option.isSome hsig
  · rw [hwait, wait_isSome]
  · exact hsome

theorem step_delivered (sane : Sane o) (i : Input) (delivered : Delivered o) :
    Delivered (o.step C i) ↔ Undisturbed (o, i) := by
  obtain ⟨htask, -, hreturned, hhanded⟩ | ⟨-, -, hwait⟩ | ⟨hquiet, hreturned, hhanded, -⟩ :=
    step_cases (C := C) o i
  · refine iff_of_true ?_ fun hawaiting => ?_
    · rw [Delivered, hreturned, hhanded, List.filter_append, List.filter_append, delivered]
    · have := sane (busy_of_awaiting hawaiting)
      rw [htask] at this
      cases this
  · rw [Delivered, hwait, wait_returned, wait_handed, List.filter_append, ← delivered,
      List.append_right_eq_self, Undisturbed]
    by_cases hawaiting : o.awaiting
    · rw [if_pos hawaiting, List.filter_eq_nil_iff]
      cases i.incoming <;> simp [hawaiting]
    · simp [hawaiting]
  · refine iff_of_true ?_ fun hawaiting => ?_
    · rw [Delivered, hreturned, hhanded, delivered]
    · have hbusy := busy_of_awaiting hawaiting
      exact absurd ⟨sane hbusy, hbusy⟩ hquiet

theorem run_sane (run : Run (step C) (fun _ _ _ => True) o₀ h o) (start : AtTop o₀) : Sane o := by
  refine run.invariant (fun _ o => Sane o) ?_ fun _ _ i _ sane _ => step_sane sane i
  intro hbusy
  rw [start.idle] at hbusy
  cases hbusy

/-- A datagram that is read while the client awaits its server is never seen by the engine. -/
theorem step_engine_of_awaiting (sane : Sane o) (hawaiting : o.awaiting) (i : Input) :
    (o.step C i).engine = { o.engine with socket := (o.step C i).engine.socket } := by
  have hbusy := busy_of_awaiting hawaiting
  obtain ⟨htask, -⟩ | ⟨-, -, hwait⟩ | ⟨hquiet, -⟩ := step_cases (C := C) o i
  · have := sane hbusy
    rw [htask] at this
    cases this
  · rw [hwait]
    exact wait_engine o i
  · exact absurd ⟨sane hbusy, hbusy⟩ hquiet

/-- The peers' datagrams all go to `poll` exactly if none of them is there while the client
awaits its server, and so whenever there is no client. -/
theorem signaling_swallows (run : Run (step C) (fun _ _ _ => True) o₀ h o) (start : AtTop o₀) :
    (Run.Throughout (fun _ o => Delivered o) h o ↔ Run.Each (fun _ m => Undisturbed m) h) ∧
    (o₀.sig = none → Delivered o) := by
  have hiff : Run.Throughout (fun _ o => Delivered o) h o ↔ Run.Each (fun _ m => Undisturbed m) h := by
    refine run.throughout_iff (P := fun _ o => Delivered o) (Q := fun _ m => Undisturbed m) ?_
      fun _ _ i run delivered _ => step_delivered (run_sane run start) i delivered
    rw [Delivered, start.returned, start.handed]
  refine ⟨hiff, fun hnone => (hiff.mpr (Run.each_iff.mpr ?_)).last⟩
  rintro newer ⟨s, i⟩ older rfl
  have hsig : s.sig.isSome = o₀.sig.isSome :=
    run.cut.1.invariant (fun _ s => s.sig.isSome = o₀.sig.isSome) rfl
      fun _ s i _ hsig _ => (step_isSome s i).trans hsig
  intro hawaiting
  rw [hnone, Option.isSome_none, Option.isSome_eq_false_iff, Option.isNone_iff_eq_none] at hsig
  rw [awaiting, hsig] at hawaiting
  cases hawaiting

instance (o : Om) : Decidable (Delivered o) := by
  unfold Delivered
  infer_instance

instance (m : Om × Input) : Decidable (Undisturbed m) := by
  unfold Undisturbed
  infer_instance

def online : Om where
  app := .chatApp
  engine := ((newEngines .A).addPeer reference (twoParties.key .B) address).1
  sig := some
    { server := ⟨[0x73], 1⟩, publicKey := twoParties.key .A, signer := none, phase := .registered true }

theorem online_atTop : AtTop online := ⟨rfl, rfl, rfl, rfl⟩

def untilHeartbeat (polled : Option Datagram) : List Input :=
  [{ env := clock }, { env := clock }, { env := clock, incoming := polled }, { env := clock },
    { env := { clock with steadyNow := 30001 } }]

def beating : History Om Input × Om :=
  Run.replay (step reference) [] online
    (untilHeartbeat (some (box .B 0 .message [7])) ++
      [{ env := clock, incoming := some ⟨⟨[0x73], 1⟩, serialize { type := .heartbeat }⟩ }])

theorem signaling_swallows_beating : Run.Throughout (fun _ o => Delivered o) beating.1 beating.2 :=
  (signaling_swallows
      (Run.replay_run .start (Run.lawful_of_forall (fun _ _ _ => trivial) _ _ _)) online_atTop).1.mpr
    (by decide +kernel)

/-- The message comes in before the answer of the server, and the loop goes round. -/
def swallowing : History Om Input × Om :=
  Run.replay (step reference) [] online
    (untilHeartbeat none ++ [{ env := clock, incoming := some (box .B 0 .message [7]) },
      { env := clock }, { env := clock }, { env := clock }])

theorem message_swallowed :
    Run (step reference) (fun _ _ _ => True) online swallowing.1 swallowing.2 ∧
    ¬ Delivered swallowing.2 ∧
    swallowing.2.engine.contacts.conversation (twoParties.key .B) = [] ∧
    (beating.2.engine.contacts.conversation (twoParties.key .B)).map (·.text) = [[7]] :=
  ⟨Run.replay_run .start (Run.lawful_of_forall (fun _ _ _ => trivial) _ _ _), by decide +kernel,
    by decide +kernel, by decide +kernel⟩

end OpenMesh.Cli.Loops
