import OpenMesh.Library.Windows
import OpenMesh.Relay.Server

namespace OpenMesh.Relay.Traffic

open OpenMesh.Core.Buffers OpenMesh.Core.Hex OpenMesh.Library.Runs OpenMesh.Library.Windows
open OpenMesh.Protocol.Envelope OpenMesh.Net.Transport OpenMesh.Relay.Router OpenMesh.Relay.Server

/-- What one turn of the loop takes from outside: a datagram unless the time runs out, the clock,
and the answers of the OS to the datagrams that are sent. -/
structure Round where
  incoming : Option Datagram
  now : Int
  takes : Endpoint → Bytes → Bool

def runOnce (s : RelayServer) (r : Round) : RelayServer × List Forward :=
  match r.incoming.map receive with
  | none => (s.expire r.now, [])
  | some datagram =>
    let (s, out) := s.handle datagram.data datagram.origin r.now
    (s.expire r.now, out.filter fun f => r.takes f.dest f.datagram)

def turn (s : RelayServer) (r : Round) : RelayServer := (runOnce s r).1

abbrev Rounds := History RelayServer Round

def Ordered (h : Rounds) (_ : RelayServer) (r : Round) : Prop := ∀ m ∈ h, m.2.now ≤ r.now

def received : Rounds → List Bytes
  | [] => []
  | (_, r) :: h => received h ++ (r.incoming.map fun d => (receive d).data).toList

def forwarded : Rounds → List Bytes
  | [] => []
  | (s, r) :: h => forwarded h ++ (runOnce s r).2.map (·.datagram)

def bytes (datagrams : List Bytes) : ℕ := (datagrams.map List.length).sum

def heard (r : Round) : Option Bytes :=
  r.incoming.bind fun d => (deserialize (receive d).data).bind fun packet =>
    if packet.source = [] then none else some packet.source

def hearings (h : Rounds) : Rounds := h.filter fun m => (heard m.2).isSome

/-- Each route is of a peer that was heard of at its time. -/
def Witnessed (h : Rounds) (s : RelayServer) : Prop :=
  ∀ key entry, s.routes.routes.lookup key = some entry →
    ∃ m ∈ h, ∃ peer, heard m.2 = some peer ∧ key = toHex peer ∧ m.2.now = entry.lastSeen

variable {config : Config} {h : Rounds} {s : RelayServer} {r : Round}

theorem handle_sublist (s : RelayServer) (datagram : Bytes) (origin : Endpoint) (now : Int) :
    ((s.handle datagram origin now).2.map (·.datagram)).Sublist [datagram] := by
  unfold RelayServer.handle
  cases deserialize datagram with
  | none => exact List.nil_sublist _
  | some packet =>
    dsimp only
    split
    · split
      · exact List.Sublist.refl _
      · exact List.nil_sublist _
    · exact List.nil_sublist _

theorem runOnce_sublist (s : RelayServer) (r : Round) :
    ((runOnce s r).2.map (·.datagram)).Sublist
      (r.incoming.map fun d => (receive d).data).toList := by
  unfold runOnce
  cases r.incoming with
  | none => exact List.nil_sublist _
  | some d =>
    exact (List.filter_sublist.map _).trans
      (handle_sublist s (receive d).data (receive d).origin r.now)

theorem forwarded_sublist (h : Rounds) : (forwarded h).Sublist (received h) := by
  induction h with
  | nil => exact List.Sublist.refl _
  | cons m h ih => exact ih.append (runOnce_sublist m.1 m.2)

theorem bytes_le {xs ys : List Bytes} (hsub : xs.Sublist ys) : bytes xs ≤ bytes ys :=
  (hsub.map List.length).sum_le_sum fun _ _ => Nat.zero_le _

theorem config_turn (s : RelayServer) (r : Round) : (turn s r).config = s.config := by
  unfold turn runOnce
  cases r.incoming with
  | none => rfl
  | some d => exact config_step s (.handle (receive d).data (receive d).origin r.now)

theorem route_turn {key : Bytes} {entry : Entry}
    (hentry : (turn s r).routes.routes.lookup key = some entry) :
    (s.routes.routes.lookup key = some entry ∨
      ∃ peer, heard r = some peer ∧ key = toHex peer ∧ entry.lastSeen = r.now) ∧
    r.now - s.config.routeTtlSeconds ≤ entry.lastSeen := by
  unfold turn runOnce at hentry
  unfold heard
  cases hin : r.incoming with
  | none =>
    rw [hin] at hentry
    simp only [Option.map_none, RelayServer.expire, RouteTable.entry_expire,
      Option.filter_eq_some_iff, decide_eq_true_eq, not_lt] at hentry
    exact ⟨Or.inl hentry.1, hentry.2⟩
  | some d =>
    rw [hin] at hentry
    have hconfig := config_step s (.handle (receive d).data (receive d).origin r.now)
    rw [RelayServer.step] at hconfig
    simp only [Option.map_some, RelayServer.expire, RouteTable.entry_expire,
      Option.filter_eq_some_iff, decide_eq_true_eq, not_lt, hconfig] at hentry
    refine ⟨?_, hentry.2⟩
    by_cases hheard : ∃ packet, deserialize (receive d).data = some packet ∧ packet.source ≠ [] ∧
        key = toHex packet.source
    · obtain ⟨packet, hp, hs, rfl⟩ := hheard
      have hroute := hears_route (s := s) hs (i := .handle (receive d).data (receive d).origin r.now)
        ⟨_, packet, rfl, hp, rfl⟩
      rw [RelayServer.step, hentry.1] at hroute
      rw [Option.some.inj hroute]
      refine Or.inr ⟨packet.source, ?_, rfl, rfl⟩
      simp [hp, hs]
    · rw [handle_route] at hentry
      · exact Or.inl hentry.1
      · intro packet hp hs hkey
        exact hheard ⟨packet, hp, hs, hkey⟩

theorem turn_witnessed (witnessed : Witnessed h s) (r : Round) :
    Witnessed ((s, r) :: h) (turn s r) := by
  intro key entry hentry
  obtain ⟨hold | ⟨peer, hheard, hkey, htime⟩, -⟩ := route_turn hentry
  · obtain ⟨m, hm, hpeer⟩ := witnessed key entry hold
    exact ⟨m, List.mem_cons_of_mem _ hm, hpeer⟩
  · exact ⟨(s, r), List.mem_cons_self, peer, hheard, hkey, htime.symm⟩

theorem run_witnessed (run : Run turn Ordered { config } h s) :
    Witnessed h s ∧ s.config = config := by
  refine run.invariant (fun h s => Witnessed h s ∧ s.config = config) ⟨?_, rfl⟩ ?_
  · intro key entry hentry
    cases hentry
  · intro h s r _ ih _
    exact ⟨turn_witnessed ih.1 r, (config_turn s r).trans ih.2⟩

/-- Whatever leaves the relay has come in before, unchanged, each datagram once at most and in
the order in which they came; and where at most so many datagrams of peers come in at a time, there
are never more routes than come in while a route lasts. -/
theorem relay_bounded (run : Run turn Ordered { config } h s) (ordered : Ordered h s r) :
    (forwarded ((s, r) :: h)).Sublist (received ((s, r) :: h)) ∧
    bytes (forwarded ((s, r) :: h)) ≤ bytes (received ((s, r) :: h)) ∧
    ∀ rate, (∀ t, (hearings ((s, r) :: h)).countP (fun m => m.2.now = t) ≤ rate) →
      (turn s r).routes.routes.entries.length ≤ rate * (config.routeTtlSeconds.toNat + 1) := by
  have hsub := forwarded_sublist ((s, r) :: h)
  refine ⟨hsub, bytes_le hsub, fun rate hrate => ?_⟩
  obtain ⟨hwitnessed, hconfig⟩ := run_witnessed run
  have hnow : ∀ m ∈ hearings ((s, r) :: h), m.2.now ≤ r.now := by
    intro m hm
    obtain rfl | hm := List.mem_cons.mp (List.mem_of_mem_filter hm)
    · exact le_rfl
    · exact ordered m hm
  have hlength := window_length_le hrate hnow config.routeTtlSeconds.toNat
  refine le_trans ?_ hlength
  have hkeys : (turn s r).routes.routes.keys.length = (turn s r).routes.routes.entries.length :=
    List.length_map _
  rw [← hkeys]
  apply length_le_of_written (w := fun m key => ∃ peer, heard m.2 = some peer ∧ key = toHex peer)
    (turn s r).routes.routes.keys_nodup
  · rintro m key key' ⟨peer, hpeer, rfl⟩ ⟨peer', hpeer', rfl⟩
    rw [Option.some.inj (hpeer.symm.trans hpeer')]
  · intro key hkey
    obtain ⟨entry, hentry⟩ := Option.isSome_iff_exists.mp (AList.lookup_isSome.mpr hkey)
    obtain ⟨m, hm, peer, hpeer, hname, htime⟩ := turn_witnessed hwitnessed r key entry hentry
    have hfresh := (route_turn hentry).2
    rw [hconfig] at hfresh
    refine ⟨m, mem_window.mpr ⟨List.mem_filter.mpr ⟨hm, ?_⟩, ?_⟩, peer, hpeer, hname⟩
    · rw [hpeer]
      rfl
    · rw [htime]
      have := Int.self_le_toNat config.routeTtlSeconds
      omega

instance (h : Rounds) (s : RelayServer) (r : Round) : Decidable (Ordered h s r) :=
  inferInstanceAs (Decidable (∀ m ∈ h, _))

def meeting : Rounds × RelayServer :=
  Run.replay turn [] {}
    [⟨some ⟨bobEp, announce bob⟩, 100, fun _ _ => true⟩,
      ⟨some ⟨aliceEp, announce alice⟩, 130, fun _ _ => true⟩, ⟨none, 150, fun _ _ => true⟩]

def writing : Round := ⟨some ⟨aliceEp, message alice bob⟩, 161, fun _ _ => true⟩

theorem relay_bounded_meeting :
    bytes (forwarded ((meeting.2, writing) :: meeting.1)) ≤
      bytes (received ((meeting.2, writing) :: meeting.1)) ∧
    (meeting.2.routes.lookup (toHex bob)).isSome ∧ (turn meeting.2 writing).routes.lookup (toHex bob) = none := by
  have hrun : Run turn Ordered {} meeting.1 meeting.2 := Run.replay_run .start (by decide +kernel)
  have hordered : Ordered meeting.1 meeting.2 writing := by decide +kernel
  exact ⟨(relay_bounded hrun hordered).2.1, by decide +kernel, by decide +kernel⟩

end OpenMesh.Relay.Traffic
