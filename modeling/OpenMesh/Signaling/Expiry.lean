import OpenMesh.Signaling.Routability

namespace OpenMesh.Signaling.Expiry

open OpenMesh.Core.Buffers OpenMesh.Core.Hex OpenMesh.Crypto.Primitives
open OpenMesh.Crypto.Reference OpenMesh.Library.Runs
open OpenMesh.Protocol.Envelope OpenMesh.Net.Transport OpenMesh.Signaling.Registry
open OpenMesh.Signaling.Server OpenMesh.Signaling.Steps OpenMesh.Signaling.Routability

/-- What one turn of the loop takes from outside: a datagram unless the time runs out, the clock,
and the challenge that would be drawn. -/
structure Round where
  incoming : Option Datagram
  now : Int
  challenge : Challenge

variable (C : Sodium)

def runOnce (s : SignalingServer) (r : Round) : SignalingServer × List Outgoing :=
  match r.incoming.map receive with
  | none => (s.expire r.now, [])
  | some dg =>
    match deserialize dg.data with
    | none => (s.expire r.now, [])
    | some packet =>
      let (s, out) := s.handle C packet dg.origin r.now r.challenge
      (s.expire r.now, out)

def Round.input (r : Round) : Option SignalingServer.Input :=
  r.incoming.bind fun d => (deserialize (receive d).data).map fun packet =>
    .handle packet d.origin r.now r.challenge

abbrev Rounds := History SignalingServer Round

def turn (s : SignalingServer) (r : Round) : SignalingServer := (runOnce C s r).1

/-- In this turn the key is registered, or a heartbeat for it is accepted. -/
def Alive (key : Bytes) (m : SignalingServer × Round) : Prop :=
  ∃ i origin, m.2.input = some i ∧ ((∃ it, Registers C key origin m.2.now it m.1 i) ∨
    (Comes .heartbeat key origin m.2.now i ∧ (m.1.registry.lookup (toHex key)).isSome))

/-- The key has given no sign of life for longer than its entry may stay. -/
def Idle (config : Config) (key : Bytes) (now : Int) (h : Rounds) : Prop :=
  ∀ m ∈ h, Alive C key m → m.2.now < now - config.peerTtlSeconds

/-- The packet looks for the key, or keeps it alive. -/
def Asks (key : Bytes) (i : SignalingServer.Input) : Prop :=
  ∃ packet origin now challenge, i = .handle packet origin now challenge ∧
    (packet.type = .discover ∧ packet.destination = key ∨
      packet.type = .connect ∧ packet.destination = key ∨
      packet.type = .heartbeat ∧ packet.source = key)

/-- An idle key is not found, is sent nothing, and does not come back to life. -/
def Unserved (config : Config) (h : Rounds) (m : SignalingServer × Round) : Prop :=
  ∀ packet origin key, m.2.input = some (.handle packet origin m.2.now m.2.challenge) →
    Idle C config key m.2.now h →
      (packet.type = .discover → packet.destination = key →
        ∀ o ∈ (runOnce C m.1 m.2).2, o.packet.payload = []) ∧
      (packet.type = .connect → packet.destination = key → (runOnce C m.1 m.2).2 = []) ∧
      (packet.type = .heartbeat → packet.source = key →
        (turn C m.1 m.2).registry.lookup (toHex key) = none)

/-- The entry that the packet asks for has not run out since the last sweep. -/
def Current (config : Config) (m : SignalingServer × Round) : Prop :=
  ∀ i key entry, m.2.input = some i → Asks key i →
    m.1.registry.peers.lookup (toHex key) = some entry →
      m.2.now - config.peerTtlSeconds ≤ entry.lastSeen

variable {C} {config : Config} {h : Rounds} {s : SignalingServer} {r : Round} {key : Bytes}

theorem runOnce_eq (s : SignalingServer) (r : Round) : runOnce C s r = match r.input with
    | some i => ((s.step C i).expire r.now, s.sends C i)
    | none => (s.expire r.now, []) := by
  unfold runOnce Round.input
  cases r.incoming with
  | none => rfl
  | some d =>
    simp only [Option.map_some, Option.bind_some]
    cases deserialize (receive d).data <;> rfl

theorem input_handle {i : SignalingServer.Input} (hi : r.input = some i) :
    ∃ packet origin, i = .handle packet origin r.now r.challenge := by
  obtain ⟨d, -, hd⟩ := Option.bind_eq_some_iff.mp hi
  obtain ⟨packet, -, rfl⟩ := Option.map_eq_some_iff.mp hd
  exact ⟨packet, d.origin, rfl⟩

theorem entry_turn {i : SignalingServer.Input} (hi : r.input = some i) {entry : Entry} :
    (turn C s r).registry.peers.lookup (toHex key) = some entry ↔
      (s.step C i).registry.peers.lookup (toHex key) = some entry ∧
        r.now - s.config.peerTtlSeconds ≤ entry.lastSeen := by
  rw [turn, runOnce_eq, hi]
  simp only [SignalingServer.expire, PeerRegistry.entry_expire, Option.filter_eq_some_iff,
    decide_eq_true_eq, config_step, not_lt]

theorem entry_turn_none (hi : r.input = none) {entry : Entry} :
    (turn C s r).registry.peers.lookup (toHex key) = some entry ↔
      s.registry.peers.lookup (toHex key) = some entry ∧
        r.now - s.config.peerTtlSeconds ≤ entry.lastSeen := by
  rw [turn, runOnce_eq, hi]
  simp only [SignalingServer.expire, PeerRegistry.entry_expire, Option.filter_eq_some_iff,
    decide_eq_true_eq, not_lt]

structure Timely (C : Sodium) (config : Config) (h : Rounds) (s : SignalingServer) : Prop where
  unchanged : s.config = config
  alive : ∀ key entry, s.registry.peers.lookup (toHex key) = some entry →
    ∃ m ∈ h, Alive C key m ∧ m.2.now = entry.lastSeen
  latest : ∀ key entry, s.registry.peers.lookup (toHex key) = some entry →
    ∀ m ∈ h, Alive C key m → m.2.now ≤ entry.lastSeen
  lasting : ∀ key entry, s.registry.peers.lookup (toHex key) = some entry →
    0 ≤ config.peerTtlSeconds

theorem alive_entry {i : SignalingServer.Input} (hi : r.input = some i) (ha : Alive C key (s, r)) :
    ∃ origin, (s.step C i).registry.peers.lookup (toHex key) = some ⟨origin, r.now⟩ := by
  obtain ⟨i', origin, hi', hr | ⟨hc, hknown⟩⟩ := ha
  · obtain rfl : i = i' := Option.some.inj (hi.symm.trans hi')
    exact ⟨origin, (registers_entry hr.choose_spec).1⟩
  · obtain rfl : i = i' := Option.some.inj (hi.symm.trans hi')
    exact ⟨origin, heartbeat_entry hc hknown⟩

theorem entry_old {i : SignalingServer.Input} (hi : r.input = some i) (ha : ¬ Alive C key (s, r))
    {entry : Entry} (hentry : (s.step C i).registry.peers.lookup (toHex key) = some entry) :
    s.registry.peers.lookup (toHex key) = some entry := by
  obtain ⟨packet, origin, rfl⟩ := input_handle hi
  cases step_effect (C := C) key s (.handle packet origin r.now r.challenge) with
  | none heq _ => rwa [heq] at hentry
  | challenged _ _ _ _ heq _ => rwa [heq] at hentry
  | refused _ _ _ _ _ _ heq _ => rwa [heq] at hentry
  | registered origin' now it hr _ _ =>
    obtain ⟨_, ⟨⟨_, _, hpacket, -⟩, -⟩, -⟩ := id hr
    cases hpacket
    exact absurd ⟨_, _, hi, Or.inl ⟨it, hr⟩⟩ ha
  | refreshed origin' now hc hknown _ _ =>
    obtain ⟨_, _, hpacket, -⟩ := id hc
    cases hpacket
    exact absurd ⟨_, _, hi, Or.inr ⟨hc, hknown⟩⟩ ha
  | removed _ _ _ heq _ =>
    rw [heq] at hentry
    cases hentry
  | swept now hexpire _ _ => cases hexpire

theorem config_turn (s : SignalingServer) (r : Round) : (turn C s r).config = s.config := by
  rw [turn, runOnce_eq]
  split
  · exact config_step s _
  · rfl

theorem timely_start : Timely C config [] (start config) where
  unchanged := rfl
  alive key entry hentry := by cases hentry
  latest key entry hentry := by cases hentry
  lasting key entry hentry := by cases hentry

theorem timely_step (timely : Timely C config h s) (hforward : ∀ m ∈ h, m.2.now ≤ r.now) :
    Timely C config ((s, r) :: h) (turn C s r) := by
  have hstep : ∀ key entry, (turn C s r).registry.peers.lookup (toHex key) = some entry →
      (Alive C key (s, r) ∧ entry.lastSeen = r.now ∧ r.now - config.peerTtlSeconds ≤ r.now) ∨
        (¬ Alive C key (s, r) ∧ s.registry.peers.lookup (toHex key) = some entry) := by
    intro key entry hentry
    cases hi : r.input with
    | none =>
      refine Or.inr ⟨?_, ((entry_turn_none hi).mp hentry).1⟩
      rintro ⟨i, origin, hi', -⟩
      rw [hi] at hi'
      cases hi'
    | some i =>
      obtain ⟨hafter, hfresh⟩ := (entry_turn hi).mp hentry
      by_cases ha : Alive C key (s, r)
      · obtain ⟨origin, hnew⟩ := alive_entry hi ha
        obtain rfl := Option.some.inj (hnew.symm.trans hafter)
        exact Or.inl ⟨ha, rfl, timely.unchanged ▸ hfresh⟩
      · exact Or.inr ⟨ha, entry_old hi ha hafter⟩
  refine ⟨(config_turn s r).trans timely.unchanged, fun key entry hentry => ?_,
    fun key entry hentry m hm ha => ?_, fun key entry hentry => ?_⟩
  · obtain ⟨ha, htime, -⟩ | ⟨-, hentry⟩ := hstep key entry hentry
    · exact ⟨(s, r), List.mem_cons_self, ha, htime.symm⟩
    · obtain ⟨m, hm, halive⟩ := timely.alive key entry hentry
      exact ⟨m, List.mem_cons_of_mem _ hm, halive⟩
  · obtain ⟨-, htime, -⟩ | ⟨hdead, hentry⟩ := hstep key entry hentry
    · obtain rfl | hm := List.mem_cons.mp hm
      · exact le_of_eq htime.symm
      · exact htime ▸ hforward m hm
    · obtain rfl | hm := List.mem_cons.mp hm
      · exact absurd ha hdead
      · exact timely.latest key entry hentry m hm ha
  · obtain ⟨-, -, hlast⟩ | ⟨-, hentry⟩ := hstep key entry hentry
    · omega
    · exact timely.lasting key entry hentry

/-- A key with an entry is idle exactly if the entry is too old. -/
theorem idle_iff (timely : Timely C config h s) {entry : Entry} {now : Int}
    (hentry : s.registry.peers.lookup (toHex key) = some entry) :
    Idle C config key now h ↔ entry.lastSeen < now - config.peerTtlSeconds := by
  constructor
  · intro hidle
    obtain ⟨m, hm, ha, htime⟩ := timely.alive key entry hentry
    exact htime ▸ hidle m hm ha
  · intro hold m hm ha
    exact lt_of_le_of_lt (timely.latest key entry hentry m hm ha) hold

theorem alive_length {m : SignalingServer × Round} (ha : Alive C key m) :
    key.length = kPublicKeyBytes := by
  obtain ⟨i, origin, -, ⟨it, signature, ⟨⟨_, _, -, -, -, hlen, -⟩, -⟩, -⟩ | ⟨⟨_, _, -, -, -, hlen⟩, -⟩⟩ := ha
  · exact hlen
  · exact hlen

theorem toString_ne_nil (e : Endpoint) : e.toString ≠ [] := by
  simp [Endpoint.toString]

theorem sends_turn {i : SignalingServer.Input} (hi : r.input = some i) :
    (runOnce C s r).2 = s.sends C i := by
  rw [runOnce_eq, hi]

section Requests

variable {packet : Packet} {origin : Endpoint} {now : Int} {challenge : Challenge}

theorem sends_discover (hty : packet.type = .discover) (hne : packet.destination ≠ []) :
    s.sends C (.handle packet origin now challenge) =
      [⟨origin, { type := .connect, source := packet.destination, payload :=
        ((s.registry.lookup (toHex packet.destination)).map Endpoint.toString).getD [] }⟩] := by
  simp only [SignalingServer.sends, SignalingServer.handle, hty, SignalingServer.handleDiscover,
    hne, ↓reduceIte]
  cases s.registry.lookup (toHex packet.destination) <;> rfl

theorem sends_connect (hty : packet.type = .connect) (hne : packet.destination ≠ []) :
    s.sends C (.handle packet origin now challenge) =
      ((s.registry.lookup (toHex packet.destination)).map fun endpoint =>
        (⟨endpoint, packet⟩ : Outgoing)).toList := by
  simp only [SignalingServer.sends, SignalingServer.handle, hty, SignalingServer.handleConnect,
    hne, ↓reduceIte]
  cases s.registry.lookup (toHex packet.destination) <;> rfl

theorem sends_nowhere (hty : packet.type = .discover ∨ packet.type = .connect)
    (hnil : packet.destination = []) : s.sends C (.handle packet origin now challenge) = [] := by
  obtain hty | hty := hty
  · simp only [SignalingServer.sends, SignalingServer.handle, hty, SignalingServer.handleDiscover,
      hnil, ↓reduceIte]
  · simp only [SignalingServer.sends, SignalingServer.handle, hty, SignalingServer.handleConnect,
      hnil, ↓reduceIte]

end Requests

section Asked

variable {packet : Packet} {origin : Endpoint}

theorem heartbeat_stays {entry : Entry} (timely : Timely C config h s)
    (hi : r.input = some (.handle packet origin r.now r.challenge))
    (hty : packet.type = .heartbeat)
    (hentry : s.registry.peers.lookup (toHex packet.source) = some entry) :
    (turn C s r).registry.peers.lookup (toHex packet.source) = some ⟨origin, r.now⟩ := by
  obtain ⟨m, -, halive, -⟩ := timely.alive packet.source entry hentry
  have hlasting := timely.lasting packet.source entry hentry
  have hknown : (s.registry.lookup (toHex packet.source)).isSome := by
    rw [PeerRegistry.lookup, hentry]
    rfl
  have hnew := heartbeat_entry (C := C) (s := s) (i := .handle packet origin r.now r.challenge)
    ⟨packet, r.challenge, rfl, hty, rfl, alive_length halive⟩ hknown
  refine (entry_turn hi).mpr ⟨hnew, ?_⟩
  rw [timely.unchanged]
  dsimp only
  omega

theorem heartbeat_gone (hi : r.input = some (.handle packet origin r.now r.challenge))
    (hty : packet.type = .heartbeat) (hnone : s.registry.peers.lookup (toHex key) = none) :
    (turn C s r).registry.lookup (toHex key) = none := by
  have hdead : ¬ Alive C key (s, r) := by
    rintro ⟨i, origin', hi', ⟨it, signature, ⟨⟨packet', challenge, hpacket, hreg, -⟩, -⟩, -⟩ | ⟨-, hknown⟩⟩
    · rw [hpacket] at hi'
      cases hi.symm.trans hi'
      rw [hty] at hreg
      cases hreg
    · rw [PeerRegistry.lookup, hnone] at hknown
      cases hknown
  rw [PeerRegistry.lookup, Option.map_eq_none_iff]
  cases hentry : (turn C s r).registry.peers.lookup (toHex key) with
  | none => rfl
  | some entry =>
    have hbefore := entry_old hi hdead ((entry_turn hi).mp hentry).1
    rw [hnone] at hbefore
    cases hbefore

theorem gone_of_idle (timely : Timely C config h s) (current : Current config (s, r))
    (hi : r.input = some (.handle packet origin r.now r.challenge))
    (hidle : Idle C config key r.now h)
    (hasks : Asks key (.handle packet origin r.now r.challenge)) :
    s.registry.peers.lookup (toHex key) = none := by
  cases hentry : s.registry.peers.lookup (toHex key) with
  | none => rfl
  | some entry =>
    have hfresh := current _ key entry hi hasks hentry
    have hold := (idle_iff timely hentry).mp hidle
    dsimp only at hfresh hold
    omega

end Asked

theorem current_of_unserved (timely : Timely C config h s)
    (unserved : Unserved C config h (s, r)) : Current config (s, r) := by
  rintro i key entry hi ⟨packet, origin, now, challenge, rfl, hasks⟩ hentry
  obtain ⟨packet', origin', hpacket⟩ := input_handle hi
  cases hpacket
  by_contra hold
  have hidle : Idle C config key r.now h := (idle_iff timely hentry).mpr (not_le.mp hold)
  obtain ⟨m, -, halive, -⟩ := timely.alive key entry hentry
  have hlen := alive_length halive
  have hne : key ≠ [] := by
    rintro rfl
    cases hlen
  have hlookup : s.registry.lookup (toHex key) = some entry.endpoint := by
    rw [PeerRegistry.lookup, hentry]
    rfl
  obtain ⟨hdiscover, hconnect, hheartbeat⟩ := unserved packet origin key hi hidle
  dsimp only at hdiscover hconnect hheartbeat
  rw [sends_turn hi] at hdiscover hconnect
  obtain ⟨hty, rfl⟩ | ⟨hty, rfl⟩ | ⟨hty, rfl⟩ := hasks
  · have hsent := hdiscover hty rfl
    rw [sends_discover hty hne, hlookup] at hsent
    exact toString_ne_nil _ (hsent _ (List.mem_singleton_self _))
  · have hsent := hconnect hty rfl
    rw [sends_connect hty hne, hlookup] at hsent
    cases hsent
  · have hgone := hheartbeat hty rfl
    rw [PeerRegistry.lookup, heartbeat_stays timely hi hty hentry] at hgone
    cases hgone

theorem unserved_of_current (timely : Timely C config h s) (current : Current config (s, r)) :
    Unserved C config h (s, r) := by
  intro packet origin key hi hidle
  dsimp only
  rw [sends_turn hi]
  refine ⟨fun hty hdest o ho => ?_, fun hty hdest => ?_, fun hty hsource => ?_⟩
  · have hnone := gone_of_idle timely current hi hidle
      ⟨packet, origin, _, _, rfl, Or.inl ⟨hty, hdest⟩⟩
    by_cases hne : packet.destination = []
    · rw [sends_nowhere (Or.inl hty) hne] at ho
      cases ho
    · rw [sends_discover hty hne, hdest, PeerRegistry.lookup, hnone] at ho
      rw [List.mem_singleton.mp ho]
      rfl
  · have hnone := gone_of_idle timely current hi hidle
      ⟨packet, origin, _, _, rfl, Or.inr (Or.inl ⟨hty, hdest⟩)⟩
    by_cases hne : packet.destination = []
    · exact sends_nowhere (Or.inr hty) hne
    · rw [sends_connect hty hne, hdest, PeerRegistry.lookup, hnone]
      rfl
  · exact heartbeat_gone hi hty (gone_of_idle timely current hi hidle
      ⟨packet, origin, _, _, rfl, Or.inr (Or.inr ⟨hty, hsource⟩)⟩)

theorem unserved_iff (timely : Timely C config h s) :
    Unserved C config h (s, r) ↔ Current config (s, r) :=
  ⟨current_of_unserved timely, unserved_of_current timely⟩

theorem register_swept {packet : Packet} {origin : Endpoint} {now : Int} {challenge : Challenge} :
    ((s.expire now).handleRegister C packet origin now challenge).2 =
      (s.handleRegister C packet origin now challenge).2 := by
  unfold SignalingServer.handleRegister
  dsimp only [SignalingServer.expire]
  split_ifs with hlen hempty hsig
  · rfl
  · rfl
  · rw [Table.lookup_keep]
    cases s.pending.lookup (toHex packet.source) with
    | none => rfl
    | some it =>
      by_cases hexp : it.expiry < now
      · rw [Option.filter_some, if_neg (by simpa using hexp)]
        dsimp only
        rw [if_pos hexp]
      · rw [Option.filter_some, if_pos (by simpa using hexp)]
        dsimp only
        split_ifs <;> rfl
  · rfl

/-- A sweep before the packet changes no reply, if the entry it asks for has not run out. -/
theorem sends_swept (timely : Timely C config h s) (current : Current config (s, r)) :
    (runOnce C (s.expire r.now) r).2 = (runOnce C s r).2 := by
  cases hi : r.input with
  | none => rw [runOnce_eq, runOnce_eq, hi]
  | some i =>
    obtain ⟨packet, origin, rfl⟩ := input_handle hi
    have hkept : ∀ key, Asks key (.handle packet origin r.now r.challenge) →
        (s.expire r.now).registry.lookup (toHex key) = s.registry.lookup (toHex key) := by
      intro key hasks
      rw [PeerRegistry.lookup, SignalingServer.expire, PeerRegistry.entry_expire,
        PeerRegistry.lookup]
      cases hentry : s.registry.peers.lookup (toHex key) with
      | none => rfl
      | some entry =>
        have hfresh := current _ key entry hi hasks hentry
        rw [Option.filter_some, if_pos]
        rw [timely.unchanged, decide_eq_true_eq, not_lt]
        exact hfresh
    rw [sends_turn hi, sends_turn hi]
    cases hty : packet.type with
    | register =>
      simp only [SignalingServer.sends, SignalingServer.handle, hty]
      exact register_swept
    | discover =>
      by_cases hne : packet.destination = []
      · rw [sends_nowhere (Or.inl hty) hne, sends_nowhere (Or.inl hty) hne]
      · rw [sends_discover hty hne, sends_discover hty hne,
          hkept _ ⟨packet, origin, _, _, rfl, Or.inl ⟨hty, rfl⟩⟩]
    | connect =>
      by_cases hne : packet.destination = []
      · rw [sends_nowhere (Or.inr hty) hne, sends_nowhere (Or.inr hty) hne]
      · rw [sends_connect hty hne, sends_connect hty hne,
          hkept _ ⟨packet, origin, _, _, rfl, Or.inr (Or.inl ⟨hty, rfl⟩)⟩]
    | _ => simp only [SignalingServer.sends, SignalingServer.handle, hty,
        SignalingServer.handleHeartbeat]

def Forward (h : Rounds) (r : Round) : Prop := ∀ m ∈ h, m.2.now ≤ r.now

theorem timely_run (run : Run (turn C) (fun h _ r => Forward h r) (start config) h s) :
    Timely C config h s :=
  run.invariant (Timely C config) timely_start fun _ _ _ _ timely hforward =>
    timely_step timely hforward

/-- Throughout a run, no idle key is served exactly if no packet ever asks for an entry that has
run out since the last sweep; the replies then do not depend on the sweeps. -/
theorem idle_unserved (run : Run (turn C) (fun h _ r => Forward h r) (start config) h s) :
    (Run.Each (Unserved C config) h ↔ Run.Each (fun _ m => Current config m) h) ∧
    (Run.Each (fun _ m => Current config m) h → ∀ newer m older, h = newer ++ m :: older →
      (runOnce C (m.1.expire m.2.now) m.2).2 = (runOnce C m.1 m.2).2) := by
  refine ⟨run.each_congr fun h s r run _ => unserved_iff (timely_run run), ?_⟩
  rintro current newer ⟨t, r⟩ older rfl
  exact sends_swept (timely_run run.cut.1) current.split

def arriving (packet : Packet) (origin : Endpoint) (now : Int) : Round :=
  ⟨some ⟨origin, serialize packet⟩, now, nonce⟩

def query : Packet := { type := .discover, destination := owned }

def lookedUp (now : Int) : List Round :=
  [arriving (names .register []) home 0,
   arriving (names .register (owned ++ nonce.val)) home 0, arriving query elsewhere now]

def rounds (script : List Round) : Rounds × SignalingServer :=
  Run.replay (turn reference) [] (start {}) script

instance (h : Rounds) (r : Round) : Decidable (Forward h r) :=
  inferInstanceAs (Decidable (∀ m ∈ h, m.2.now ≤ r.now))

theorem current_arriving {packet : Packet} {origin : Endpoint} {now : Int}
    (hp : deserialize ((serialize packet).take kReceiveBufferSize) = some packet)
    (hcurrent : ∀ entry key, Asks key (.handle packet origin now nonce) →
      s.registry.peers.lookup (toHex key) = some entry →
        now - config.peerTtlSeconds ≤ entry.lastSeen) :
    Current config (s, arriving packet origin now) := by
  intro i key entry hi hasks hentry
  have hinput : (arriving packet origin now).input = some (.handle packet origin now nonce) := by
    simp only [Round.input, arriving, receive, Option.bind_some, hp, Option.map_some]
  obtain rfl := Option.some.inj (hinput.symm.trans hi)
  exact hcurrent entry key hasks hentry

theorem current_register {payload : Bytes} {origin : Endpoint} {now : Int}
    (hp : deserialize ((serialize (names .register payload)).take kReceiveBufferSize) =
      some (names .register payload)) :
    Current config (s, arriving (names .register payload) origin now) := by
  refine current_arriving hp ?_
  rintro entry key ⟨packet, _, _, _, hi, ⟨hty, -⟩ | ⟨hty, -⟩ | ⟨hty, -⟩⟩
  all_goals
    cases hi
    cases hty

theorem idle_unserved_inTime :
    (runOnce reference ((rounds ((lookedUp 120).take 2)).2.expire 120)
        (arriving query elsewhere 120)).2 =
      [⟨elsewhere, { type := .connect, source := owned, payload := home.toString }⟩] := by
  have run : Run (turn reference) (fun h _ r => Forward h r) (start {}) (rounds (lookedUp 120)).1
      (rounds (lookedUp 120)).2 := Run.replay_run .start (by decide +kernel)
  have hentry : (rounds ((lookedUp 120).take 2)).2.registry.peers.lookup (toHex owned) =
      some ⟨home, 0⟩ := by decide +kernel
  have hreply : (runOnce reference (rounds ((lookedUp 120).take 2)).2
      (arriving query elsewhere 120)).2 =
        [⟨elsewhere, { type := .connect, source := owned, payload := home.toString }⟩] := by
    decide +kernel
  refine ((idle_unserved run).2 ⟨?_, ?_, ?_, trivial⟩ [] _ _ rfl).trans hreply
  · refine current_arriving (by decide +kernel) ?_
    rintro entry key ⟨packet, _, _, _, hi, hasks⟩ hl
    cases hi
    obtain ⟨-, rfl⟩ | ⟨hty, -⟩ | ⟨hty, -⟩ := hasks
    · obtain rfl := Option.some.inj (hentry.symm.trans hl)
      decide
    · cases hty
    · cases hty
  · exact current_register (by decide +kernel)
  · exact current_register (by decide +kernel)

/-- A peer that was last seen 121 seconds ago is still found. -/
theorem idle_served : Idle reference {} owned 121 (rounds ((lookedUp 121).take 2)).1 ∧
    (runOnce reference (rounds ((lookedUp 121).take 2)).2 (arriving query elsewhere 121)).2 =
      [⟨elsewhere, { type := .connect, source := owned, payload := home.toString }⟩] := by
  refine ⟨fun m hm _ => ?_, by decide +kernel⟩
  have htimes : ∀ m ∈ (rounds ((lookedUp 121).take 2)).1, m.2.now = 0 := by decide +kernel
  rw [htimes m hm]
  decide

end OpenMesh.Signaling.Expiry
