import OpenMesh.Core.Hex
import OpenMesh.Library.Runs
import OpenMesh.Relay.Router

namespace OpenMesh.Relay.Server

open OpenMesh.Core.Buffers OpenMesh.Core.Hex OpenMesh.Library.Runs
open OpenMesh.Protocol.Envelope OpenMesh.Net.Transport OpenMesh.Relay.Router

structure Forward where
  dest : Endpoint
  datagram : Bytes
  deriving DecidableEq

structure Config where
  routeTtlSeconds : Int := 60

structure RelayServer where
  config : Config := {}
  routes : RouteTable := {}

namespace RelayServer

/-- The server after one datagram, and what it appends to `out`. -/
def handle (s : RelayServer) (datagram : Bytes) (origin : Endpoint) (now : Int) :
    RelayServer × List Forward :=
  match deserialize datagram with
  | none => (s, [])
  | some packet =>
    let s := if packet.source ≠ [] then
        { s with routes := s.routes.upsert (toHex packet.source) origin now }
      else s
    if packet.destination ≠ [] then
      match s.routes.lookup (toHex packet.destination) with
      | some endpoint => (s, [⟨endpoint, datagram⟩])
      | none => (s, [])
    else (s, [])

def expire (s : RelayServer) (now : Int) : RelayServer :=
  { s with routes := s.routes.expire (now - s.config.routeTtlSeconds) }

inductive Input where
  | handle (datagram : Bytes) (origin : Endpoint) (now : Int)
  | expire (now : Int)

def step (s : RelayServer) : Input → RelayServer
  | .handle datagram origin now => (s.handle datagram origin now).1
  | .expire now => s.expire now

end RelayServer

abbrev Past := History RelayServer RelayServer.Input

def Hears (peer : Bytes) (origin : Endpoint) (now : Int) (i : RelayServer.Input) : Prop :=
  ∃ datagram packet, i = .handle datagram origin now ∧ deserialize datagram = some packet ∧
    packet.source = peer

/-- The most recent datagram of the peer came from the endpoint at that time, and the time
is not below the cutoff of any sweep since. -/
def LastSeen (config : Config) (peer : Bytes) (endpoint : Endpoint) (time : Int) (h : Past) : Prop :=
  Since (fun m => (∀ origin now, ¬ Hears peer origin now m.2) ∧
      ∀ now, m.2 = .expire now → ¬ time < now - config.routeTtlSeconds)
    (fun m => Hears peer endpoint time m.2) h

variable {s : RelayServer} {i : RelayServer.Input} {peer : Bytes} {origin : Endpoint} {now : Int}
variable {config : Config} {h : Past}

theorem hears_route (hpeer : peer ≠ []) (hi : Hears peer origin now i) :
    (s.step i).routes.routes.lookup (toHex peer) = some ⟨origin, now⟩ := by
  obtain ⟨datagram, packet, rfl, hp, rfl⟩ := hi
  have hroute := s.routes.entry_upsert (toHex packet.source) origin now
  simp only [RelayServer.step, RelayServer.handle, hp, ne_eq, hpeer, not_false_eq_true, ↓reduceIte]
  split
  · split <;> exact hroute
  · exact hroute

theorem handle_route {datagram key : Bytes}
    (hkey : ∀ packet, deserialize datagram = some packet → packet.source ≠ [] →
      key ≠ toHex packet.source) :
    (s.handle datagram origin now).1.routes.routes.lookup key = s.routes.routes.lookup key := by
  unfold RelayServer.handle
  cases hp : deserialize datagram with
  | none => rfl
  | some packet =>
    have hroute : (if packet.source ≠ [] then
          { s with routes := s.routes.upsert (toHex packet.source) origin now }
        else s).routes.routes.lookup key = s.routes.routes.lookup key := by
      split
      · next hs => exact s.routes.entry_upsert_ne (hkey packet hp hs) origin now
      · rfl
    dsimp only
    split
    · split <;> exact hroute
    · exact hroute

theorem handle_forwards {datagram : Bytes} {packet : Packet}
    (hp : deserialize datagram = some packet) :
    (s.handle datagram origin now).2 = if packet.destination = [] then [] else
      (((s.handle datagram origin now).1.routes.lookup (toHex packet.destination)).map
        fun endpoint => (⟨endpoint, datagram⟩ : Forward)).toList := by
  simp only [RelayServer.handle, hp]
  by_cases hd : packet.destination = []
  · rw [if_neg (not_not.mpr hd), if_pos hd]
  · rw [if_pos hd, if_neg hd]
    split
    · next endpoint hl =>
      rw [hl]
      rfl
    · next hl =>
      rw [hl]
      rfl

theorem config_step (s : RelayServer) (i : RelayServer.Input) : (s.step i).config = s.config := by
  cases i with
  | expire now => rfl
  | handle datagram origin now =>
    simp only [RelayServer.step, RelayServer.handle]
    repeat' split
    all_goals rfl

/-- The relay keeps, for every peer, what the history says about it. -/
structure Remembers (config : Config) (h : Past) (s : RelayServer) : Prop where
  unchanged : s.config = config
  routes : ∀ peer, peer ≠ [] → ∀ endpoint time,
    s.routes.routes.lookup (toHex peer) = some ⟨endpoint, time⟩ ↔ LastSeen config peer endpoint time h

theorem remembers_start : Remembers config [] { config } where
  unchanged := rfl
  routes peer _ endpoint time := by
    constructor
    · intro hl
      cases hl
    · intro hl
      cases hl

theorem remembers_step (remembers : Remembers config h s) (i : RelayServer.Input) :
    Remembers config ((s, i) :: h) (s.step i) where
  unchanged := (config_step s i).trans remembers.unchanged
  routes peer hpeer endpoint time := by
    have hold := remembers.routes peer hpeer endpoint time
    by_cases hheard : ∃ origin now, Hears peer origin now i
    · obtain ⟨origin, now, hi⟩ := hheard
      rw [hears_route hpeer hi]
      constructor
      · intro heq
        cases heq
        exact Or.inl hi
      · rintro (hi' | ⟨⟨hquiet, -⟩, -⟩)
        · obtain ⟨_, _, heq, -⟩ := hi
          obtain ⟨_, _, heq', -⟩ := hi'
          cases heq.symm.trans heq'
          rfl
        · exact absurd hi (hquiet origin now)
    · have hquiet : ∀ origin now, ¬ Hears peer origin now i := by simpa using hheard
      have hsince : LastSeen config peer endpoint time ((s, i) :: h) ↔
          (∀ now, i = .expire now → ¬ time < now - config.routeTtlSeconds) ∧
            LastSeen config peer endpoint time h := by
        constructor
        · rintro (hi | ⟨⟨-, hsweeps⟩, hl⟩)
          · exact absurd hi (hquiet endpoint time)
          · exact ⟨hsweeps, hl⟩
        · rintro ⟨hsweeps, hl⟩
          exact Or.inr ⟨⟨hquiet, hsweeps⟩, hl⟩
      rw [hsince, ← hold]
      cases i with
      | handle datagram origin now =>
        rw [RelayServer.step, handle_route]
        · simp
        · rintro packet hp - hkey
          exact hquiet origin now ⟨datagram, packet, rfl, hp, (toHex_injective hkey).symm⟩
      | expire now =>
        simp only [RelayServer.step, RelayServer.expire, RouteTable.entry_expire,
          remembers.unchanged, Option.filter_eq_some_iff, decide_eq_true_eq,
          RelayServer.Input.expire.injEq, forall_eq']
        exact and_comm

variable {ok : Past → RelayServer → RelayServer.Input → Prop}

theorem remembers_run (run : Run RelayServer.step ok { config } h s) : Remembers config h s :=
  run.invariant (Remembers config) remembers_start fun _ _ i _ remembers _ =>
    remembers_step remembers i

/-- The relay forwards by the table of who was last seen where. -/
theorem relay_refines (run : Run RelayServer.step ok { config } h s) (datagram : Bytes)
    (origin : Endpoint) (now : Int) {s' : RelayServer} {out : List Forward}
    (hhandle : s.handle datagram origin now = (s', out)) :
    (deserialize datagram = none → s' = s ∧ out = []) ∧
    ∀ packet, deserialize datagram = some packet →
      (packet.source ≠ [] → s'.routes.routes.lookup (toHex packet.source) = some ⟨origin, now⟩) ∧
      (∀ key, (packet.source ≠ [] → key ≠ toHex packet.source) →
        s'.routes.routes.lookup key = s.routes.routes.lookup key) ∧
      out.length ≤ 1 ∧
      (out.length = 1 ↔ packet.destination ≠ [] ∧ ∃ endpoint time,
        LastSeen config packet.destination endpoint time
          ((s, .handle datagram origin now) :: h)) ∧
      ∀ forward ∈ out, forward.datagram = datagram ∧ ∃ time,
        LastSeen config packet.destination forward.dest time
          ((s, .handle datagram origin now) :: h) := by
  have hs' : s' = s.step (.handle datagram origin now) := by
    rw [RelayServer.step, hhandle]
  constructor
  · intro hp
    simp only [RelayServer.handle, hp, Prod.mk.injEq] at hhandle
    exact ⟨hhandle.1.symm, hhandle.2.symm⟩
  intro packet hp
  have remembers := remembers_step (remembers_run run) (.handle datagram origin now)
  rw [← hs'] at remembers
  have hout : out = if packet.destination = [] then [] else
      ((s'.routes.lookup (toHex packet.destination)).map
        fun endpoint => (⟨endpoint, datagram⟩ : Forward)).toList := by
    have hforwards : (s.handle datagram origin now).2 = _ := handle_forwards hp
    rwa [hhandle] at hforwards
  refine ⟨fun hs => ?_, fun key hkey => ?_, ?_⟩
  · rw [hs']
    exact hears_route hs ⟨datagram, packet, rfl, hp, rfl⟩
  · rw [hs', RelayServer.step, handle_route]
    intro packet' hp'
    cases hp.symm.trans hp'
    exact hkey
  by_cases hd : packet.destination = []
  · rw [if_pos hd] at hout
    simp [hout, hd]
  · rw [if_neg hd, RouteTable.lookup] at hout
    have hroutes := remembers.routes packet.destination hd
    cases hl : s'.routes.routes.lookup (toHex packet.destination) with
    | none =>
      rw [hl] at hout hroutes
      simp [hout, ← hroutes]
    | some entry =>
      rw [hl] at hout hroutes
      have hseen := (hroutes entry.endpoint entry.lastSeen).mp rfl
      have hone : out = [⟨entry.endpoint, datagram⟩] := hout
      refine ⟨by simp [hone], ?_, ?_⟩
      · rw [hone]
        exact iff_of_true rfl ⟨hd, _, _, hseen⟩
      · intro forward hf
        rw [hone] at hf
        obtain rfl := List.mem_singleton.mp hf
        exact ⟨rfl, _, hseen⟩

def alice : Bytes := [0xA1]
def bob : Bytes := [0xB2]
def aliceEp : Endpoint := ⟨[97], 5000⟩
def bobEp : Endpoint := ⟨[98], 6000⟩

def announce (who : Bytes) : Bytes := serialize { type := .hello, source := who }

def message (sender recipient : Bytes) : Bytes := serialize
  { type := .message, flags := kFlagEncrypted, source := sender, destination := recipient,
    payload := [0xDE, 0xAD] }

def announced : RelayServer := ({} : RelayServer).step (.handle (announce bob) bobEp 100)

def swept : RelayServer := announced.step (.expire 160)

def past : Past :=
  [(announced, .expire 160), ({}, .handle (announce bob) bobEp 100)]

theorem relay_refines_message :
    (swept.handle (message alice bob) aliceEp 161).2 = [⟨bobEp, message alice bob⟩] ∧
      ∃ time, LastSeen {} bob bobEp time
        ((swept, .handle (message alice bob) aliceEp 161) :: past) := by
  have run : Run RelayServer.step (fun _ _ _ => True) {} past swept := by
    unfold past swept announced
    exact (Run.start.move trivial).move trivial
  have hp : deserialize (message alice bob) = some
      { type := .message, flags := kFlagEncrypted, source := alice, destination := bob,
        payload := [0xDE, 0xAD] } := by decide +kernel
  have hout : (swept.handle (message alice bob) aliceEp 161).2 =
      [⟨bobEp, message alice bob⟩] := by decide +kernel
  have hhandle : swept.handle (message alice bob) aliceEp 161 =
      (swept.step (.handle (message alice bob) aliceEp 161), [⟨bobEp, message alice bob⟩]) :=
    Prod.ext rfl hout
  obtain ⟨-, -, -, -, hall⟩ := (relay_refines run _ _ _ hhandle).2 _ hp
  exact ⟨hout, (hall _ (List.mem_singleton_self _)).2⟩

end OpenMesh.Relay.Server
