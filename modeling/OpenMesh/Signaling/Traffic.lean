import OpenMesh.Library.Budgets
import OpenMesh.Library.Windows
import OpenMesh.Signaling.Outputs

namespace OpenMesh.Signaling.Traffic

open OpenMesh.Core.Buffers OpenMesh.Core.Hex OpenMesh.Crypto.Primitives
open OpenMesh.Crypto.Reference OpenMesh.Library.Runs OpenMesh.Library.Budgets
open OpenMesh.Library.Windows OpenMesh.Protocol.Envelope OpenMesh.Protocol.EnvelopeCodec
open OpenMesh.Net.Transport OpenMesh.Signaling.Registry OpenMesh.Signaling.Server
open OpenMesh.Signaling.Steps OpenMesh.Signaling.Routability OpenMesh.Signaling.Expiry
open OpenMesh.Signaling.Outputs

variable (C : Sodium)

/-- The clock does not go back, and no text of an endpoint is longer than this. -/
def Ordinary (longest : ℕ) (h : Rounds) (_ : SignalingServer) (r : Round) : Prop :=
  (∀ m ∈ h, m.2.now ≤ r.now) ∧ ∀ d ∈ r.incoming, d.origin.toString.length ≤ longest

def bytesIn (_ : SignalingServer) (r : Round) : ℕ :=
  (r.incoming.map fun d => (receive d).data.length).getD 0

def bytesOut (s : SignalingServer) (r : Round) : ℕ := ((datagrams C s r).map (·.2.length)).sum

def handlings (h : Rounds) : Rounds := h.filter fun m => m.2.input.isSome

def Draws (key : Bytes) (r : Round) : Prop :=
  ∃ i origin challenge, r.input = some i ∧ Challenges key origin r.now challenge i

def Hexed {β : Type} (t : Table β) : Prop := ∀ k ∈ t, ∃ key, k = toHex key

variable {C} {config : Config} {longest : ℕ} {h : Rounds} {s : SignalingServer} {r : Round}

section Tables

variable {β : Type} {t : Table β}

theorem Hexed.insert (hexed : Hexed t) (key : Bytes) (b : β) : Hexed (t.insert (toHex key) b) := by
  intro k hk
  obtain rfl | hk := (AList.mem_insert t).mp hk
  · exact ⟨key, rfl⟩
  · exact hexed k hk

theorem Hexed.erase (hexed : Hexed t) (k : Bytes) : Hexed (t.erase k) :=
  fun k' hk' => hexed k' (AList.mem_erase.mp hk').2

theorem Hexed.keep (hexed : Hexed t) (p : β → Bool) : Hexed (t.keep p) := by
  intro k hk
  apply hexed k
  rw [← AList.lookup_isSome] at hk ⊢
  rw [Table.lookup_keep] at hk
  cases hl : t.lookup k with
  | none =>
    rw [hl] at hk
    cases hk
  | some b => rfl

end Tables

structure Accounted (C : Sodium) (config : Config) (longest : ℕ) (h : Rounds)
    (s : SignalingServer) : Prop where
  timely : Timely C config h s
  registered : Hexed s.registry.peers
  pending : Hexed s.pending
  drawn : ∀ key it, s.pending.lookup (toHex key) = some it →
    ∃ m ∈ h, Draws key m.2 ∧ it.expiry = m.2.now + config.challengeTtlSeconds
  short : ∀ key entry, s.registry.peers.lookup (toHex key) = some entry →
    entry.endpoint.toString.length ≤ longest

theorem step_hexed (hr : Hexed s.registry.peers) (hp : Hexed s.pending) (i : SignalingServer.Input) :
    Hexed (s.step C i).registry.peers ∧ Hexed (s.step C i).pending := by
  cases i with
  | expire now => exact ⟨hr.keep _, hp.keep _⟩
  | handle packet origin now challenge =>
    simp only [SignalingServer.step, SignalingServer.handle]
    split
    · unfold SignalingServer.handleRegister
      dsimp only
      split_ifs
      · exact ⟨hr, hp⟩
      · exact ⟨hr, hp.insert _ _⟩
      · split
        · exact ⟨hr, hp⟩
        · split_ifs
          · exact ⟨hr, hp⟩
          · exact ⟨hr, hp⟩
          · exact ⟨hr, hp.erase _⟩
          · exact ⟨hr.insert _ _, hp.erase _⟩
      · exact ⟨hr, hp⟩
    · exact ⟨hr, hp⟩
    · exact ⟨hr, hp⟩
    · unfold SignalingServer.handleHeartbeat
      dsimp only
      split_ifs
      · exact ⟨hr.insert _ _, hp⟩
      · exact ⟨hr, hp⟩
      · exact ⟨hr, hp⟩
    · unfold SignalingServer.handleDisconnect
      split_ifs
      · exact ⟨hr.erase _, hp⟩
      · exact ⟨hr, hp⟩
    · exact ⟨hr, hp⟩

theorem turn_hexed (hr : Hexed s.registry.peers) (hp : Hexed s.pending) (r : Round) :
    Hexed (turn C s r).registry.peers ∧ Hexed (turn C s r).pending := by
  rw [turn, runOnce_eq]
  split
  · obtain ⟨hr', hp'⟩ := step_hexed (C := C) hr hp _
    exact ⟨hr'.keep _, hp'.keep _⟩
  · exact ⟨hr.keep _, hp.keep _⟩

theorem pending_turn {key : Bytes} {it : Pending}
    (hit : (turn C s r).pending.lookup (toHex key) = some it) :
    (s.pending.lookup (toHex key) = some it ∨
      Draws key r ∧ it.expiry = r.now + s.config.challengeTtlSeconds) ∧ r.now ≤ it.expiry := by
  rw [turn, runOnce_eq] at hit
  cases hi : r.input with
  | none =>
    rw [hi] at hit
    simp only [SignalingServer.expire, Table.lookup_keep, Option.filter_eq_some_iff,
      decide_eq_true_eq, not_lt] at hit
    exact ⟨Or.inl hit.1, hit.2⟩
  | some i =>
    rw [hi] at hit
    simp only [SignalingServer.expire, Table.lookup_keep, Option.filter_eq_some_iff,
      decide_eq_true_eq, not_lt] at hit
    refine ⟨?_, hit.2⟩
    have hpending := hit.1
    cases step_effect (C := C) key s i with
    | none _ heq | refreshed _ _ _ _ _ heq | removed _ _ _ _ heq =>
      rw [heq] at hpending
      exact Or.inl hpending
    | challenged origin now challenge hc _ heq =>
      rw [heq] at hpending
      obtain rfl := Option.some.inj hpending
      obtain ⟨packet, rfl, hrest⟩ := hc
      obtain ⟨_, _, hpacket⟩ := input_handle hi
      cases hpacket
      exact Or.inr ⟨⟨_, origin, _, hi, packet, rfl, hrest⟩, rfl⟩
    | refused _ _ _ _ _ _ _ heq | registered _ _ _ _ _ heq =>
      rw [heq] at hpending
      cases hpending
    | swept now hexpire _ _ =>
      obtain ⟨_, _, hpacket⟩ := input_handle hi
      rw [hexpire] at hpacket
      cases hpacket

theorem short_turn (short : ∀ key entry, s.registry.peers.lookup (toHex key) = some entry →
      entry.endpoint.toString.length ≤ longest)
    (horigin : ∀ d ∈ r.incoming, d.origin.toString.length ≤ longest) {key : Bytes} {entry : Entry}
    (hentry : (turn C s r).registry.peers.lookup (toHex key) = some entry) :
    entry.endpoint.toString.length ≤ longest := by
  cases hi : r.input with
  | none => exact short key entry ((entry_turn_none hi).mp hentry).1
  | some i =>
    have hafter := ((entry_turn hi).mp hentry).1
    obtain ⟨d, hd, hmap⟩ := Option.bind_eq_some_iff.mp hi
    obtain ⟨packet, -, rfl⟩ := Option.map_eq_some_iff.mp hmap
    cases step_effect (C := C) key s (.handle packet d.origin r.now r.challenge) with
    | none heq _ | challenged _ _ _ _ heq _ | refused _ _ _ _ _ _ heq _ =>
      rw [heq] at hafter
      exact short key entry hafter
    | registered origin now it hr heq _ =>
      obtain ⟨_, ⟨⟨_, _, hpacket, -⟩, -⟩, -⟩ := hr
      cases hpacket
      rw [heq] at hafter
      rw [← Option.some.inj hafter]
      exact horigin d hd
    | refreshed origin now hc _ heq _ =>
      obtain ⟨_, _, hpacket, -⟩ := hc
      cases hpacket
      rw [heq] at hafter
      rw [← Option.some.inj hafter]
      exact horigin d hd
    | removed _ _ _ heq _ =>
      rw [heq] at hafter
      cases hafter
    | swept _ hexpire _ _ => cases hexpire

theorem accounted_start : Accounted C config longest [] (start config) where
  timely := timely_start
  registered k hk := absurd hk (AList.notMem_empty k)
  pending k hk := absurd hk (AList.notMem_empty k)
  drawn key it hit := by cases hit
  short key entry hentry := by cases hentry

theorem accounted_turn (accounted : Accounted C config longest h s)
    (ordinary : Ordinary longest h s r) :
    Accounted C config longest ((s, r) :: h) (turn C s r) where
  timely := timely_step accounted.timely ordinary.1
  registered := (turn_hexed accounted.registered accounted.pending r).1
  pending := (turn_hexed accounted.registered accounted.pending r).2
  drawn key it hit := by
    obtain ⟨hold | ⟨hdraws, hexpiry⟩, -⟩ := pending_turn hit
    · obtain ⟨m, hm, hdrawn⟩ := accounted.drawn key it hold
      exact ⟨m, List.mem_cons_of_mem _ hm, hdrawn⟩
    · rw [accounted.timely.unchanged] at hexpiry
      exact ⟨(s, r), List.mem_cons_self, hdraws, hexpiry⟩
  short key entry hentry := short_turn accounted.short ordinary.2 hentry

/-- An answer is no longer than the packet that asked for it and the text of one endpoint. -/
theorem sends_bytes (accounted : Accounted C config longest h s) (packet : Packet)
    {origin : Endpoint} (horigin : origin.toString.length ≤ longest) (now : Int)
    (challenge : Challenge) :
    ((s.sends C (.handle packet origin now challenge)).map
      fun o => (serialize o.packet).length).sum ≤ (serialize packet).length + longest := by
  have hnone : (([] : List Outgoing).map fun o => (serialize o.packet).length).sum ≤
      (serialize packet).length + longest := Nat.zero_le _
  simp only [SignalingServer.sends, SignalingServer.handle]
  split
  · unfold SignalingServer.handleRegister
    dsimp only
    split_ifs with hlen hempty hsig
    · exact hnone
    · have hsource := not_not.mp hlen
      simp only [List.map_cons, List.map_nil, List.sum_cons, List.sum_nil, serialize_length,
        challenge.property, hsource, List.length_nil]
      rw [kPublicKeyBytes, kChallengeBytes]
      omega
    · split
      · exact hnone
      · split_ifs
        · exact hnone
        · exact hnone
        · exact hnone
        · simp only [List.map_cons, List.map_nil, List.sum_cons, List.sum_nil, serialize_length,
            List.length_nil]
          omega
    · exact hnone
  · rw [SignalingServer.handleDiscover]
    split_ifs
    · exact hnone
    · cases hlookup : s.registry.lookup (toHex packet.destination) with
      | none =>
        simp only [List.map_cons, List.map_nil, List.sum_cons, List.sum_nil, serialize_length,
          List.length_nil]
        omega
      | some endpoint =>
        obtain ⟨entry, hentry, rfl⟩ := Option.map_eq_some_iff.mp hlookup
        have hshort := accounted.short _ entry hentry
        simp only [List.map_cons, List.map_nil, List.sum_cons, List.sum_nil, serialize_length,
          List.length_nil]
        omega
  · rw [SignalingServer.handleConnect]
    split_ifs
    · exact hnone
    · split
      · simp only [List.map_cons, List.map_nil, List.sum_cons, List.sum_nil]
        omega
      · exact hnone
  · unfold SignalingServer.handleHeartbeat
    simp only [List.map_cons, List.map_nil, List.sum_cons, List.sum_nil, serialize_length,
      List.length_nil]
    omega
  · exact hnone
  · exact hnone

theorem turn_bytes (accounted : Accounted C config longest h s) (ordinary : Ordinary longest h s r) :
    bytesOut C s r ≤ bytesIn s r + if r.incoming.isSome then longest else 0 := by
  obtain ⟨incoming, now, challenge⟩ := r
  cases incoming with
  | none => exact Nat.zero_le _
  | some d =>
    rw [bytesOut]
    cases hp : deserialize (receive d).data with
    | none =>
      rw [datagrams, runOnce_malformed hp]
      exact Nat.zero_le _
    | some packet =>
      obtain ⟨-, hdata⟩ := serialize_deserialize hp
      have hbytes := sends_bytes accounted packet (ordinary.2 d rfl) now challenge
      rw [datagrams_handled hp, List.map_map]
      rw [← hdata] at hbytes
      exact hbytes

theorem entries_length_le {β : Type} {t : Table β} (hexed : Hexed t) {events : Rounds}
    {span now : Int} {rate : ℕ} {w : SignalingServer × Round → Bytes → Prop}
    (unique : ∀ m key key', w m key → w m key' → key = key')
    (written : ∀ key b, t.lookup (toHex key) = some b →
      ∃ m ∈ events, w m key ∧ now - span ≤ m.2.now)
    (hrate : ∀ time, events.countP (fun m => m.2.now = time) ≤ rate)
    (hnow : ∀ m ∈ events, m.2.now ≤ now) : t.entries.length ≤ rate * (span.toNat + 1) := by
  have hkeys : t.keys.length = t.entries.length := List.length_map _
  rw [← hkeys]
  refine le_trans ?_ (window_length_le hrate hnow span.toNat)
  apply length_le_of_written (w := fun m k => ∃ key, w m key ∧ k = toHex key) t.keys_nodup
  · rintro m k k' ⟨key, hkey, rfl⟩ ⟨key', hkey', rfl⟩
    rw [unique m key key' hkey hkey']
  · intro k hk
    obtain ⟨key, rfl⟩ := hexed k hk
    obtain ⟨b, hb⟩ := Option.isSome_iff_exists.mp (AList.lookup_isSome.mpr hk)
    obtain ⟨m, hm, hwrites, htime⟩ := written key b hb
    refine ⟨m, mem_window.mpr ⟨hm, ?_⟩, key, hwrites, rfl⟩
    have := Int.self_le_toNat span
    omega

theorem alive_unique {m : SignalingServer × Round} {key key' : Bytes} (ha : Alive C key m)
    (ha' : Alive C key' m) : key = key' := by
  have hsource : ∀ {key : Bytes}, Alive C key m → ∃ packet origin,
      m.2.input = some (.handle packet origin m.2.now m.2.challenge) ∧ packet.source = key := by
    rintro key ⟨i, origin, hi, ⟨it, signature, ⟨⟨packet, challenge, rfl, -, hs, -⟩, -⟩, -⟩ |
      ⟨⟨packet, challenge, rfl, -, hs, -⟩, -⟩⟩
    · obtain ⟨_, _, hpacket⟩ := input_handle hi
      cases hpacket
      exact ⟨packet, origin, hi, hs⟩
    · obtain ⟨_, _, hpacket⟩ := input_handle hi
      cases hpacket
      exact ⟨packet, origin, hi, hs⟩
  obtain ⟨packet, origin, hi, rfl⟩ := hsource ha
  obtain ⟨packet', origin', hi', rfl⟩ := hsource ha'
  cases hi.symm.trans hi'
  rfl

theorem draws_unique {key key' : Bytes} (hd : Draws key r) (hd' : Draws key' r) : key = key' := by
  obtain ⟨i, origin, challenge, hi, packet, rfl, -, rfl, -⟩ := hd
  obtain ⟨i', origin', challenge', hi', packet', rfl, -, rfl, -⟩ := hd'
  cases hi.symm.trans hi'
  rfl

theorem run_accounted (run : Run (turn C) (Ordinary longest) (start config) h s) :
    Accounted C config longest h s ∧ spent (bytesOut C) h ≤
      spent bytesIn h + longest * h.countP fun m => m.2.incoming.isSome := by
  refine run.invariant (fun h s => Accounted C config longest h s ∧ spent (bytesOut C) h ≤
    spent bytesIn h + longest * h.countP fun m => m.2.incoming.isSome)
    ⟨accounted_start, Nat.zero_le _⟩ ?_
  rintro h s r _ ⟨accounted, hbytes⟩ ordinary
  refine ⟨accounted_turn accounted ordinary, ?_⟩
  have hturn := turn_bytes accounted ordinary
  rw [spent_cons, spent_cons, List.countP_cons, Nat.mul_add]
  dsimp only
  split at hturn
  · next hsome =>
    rw [if_pos hsome]
    omega
  · omega

/-- The server sends no more bytes than it gets but for the text of one endpoint for each datagram;
and where at most so many packets come in at a time, it never has more peers, and never waits for
more answers to its challenges, than packets come in while an entry lasts. -/
theorem signaling_bounded (run : Run (turn C) (Ordinary longest) (start config) h s)
    (ordinary : Ordinary longest h s r) :
    spent (bytesOut C) ((s, r) :: h) ≤ spent bytesIn ((s, r) :: h) +
      longest * ((s, r) :: h).countP (fun m => m.2.incoming.isSome) ∧
    ∀ rate, (∀ time, (handlings ((s, r) :: h)).countP (fun m => m.2.now = time) ≤ rate) →
      (turn C s r).registry.peers.entries.length ≤ rate * (config.peerTtlSeconds.toNat + 1) ∧
      (turn C s r).pending.entries.length ≤ rate * (config.challengeTtlSeconds.toNat + 1) := by
  obtain ⟨accounted, hbytes⟩ := run_accounted (run.move ordinary)
  refine ⟨hbytes, fun rate hrate => ?_⟩
  have hnow : ∀ m ∈ handlings ((s, r) :: h), m.2.now ≤ r.now := by
    intro m hm
    obtain rfl | hm := List.mem_cons.mp (List.mem_of_mem_filter hm)
    · exact le_rfl
    · exact ordinary.1 m hm
  have hunchanged : s.config = config := (run_accounted run).1.timely.unchanged
  constructor
  · refine entries_length_le (w := fun m key => Alive C key m) accounted.registered
      (fun _ _ _ => alive_unique) ?_ hrate hnow
    intro key entry hentry
    obtain ⟨m, hm, halive, htime⟩ := accounted.timely.alive key entry hentry
    have hfresh : r.now - config.peerTtlSeconds ≤ entry.lastSeen := by
      cases hi : r.input with
      | none =>
        rw [← hunchanged]
        exact ((entry_turn_none hi).mp hentry).2
      | some i =>
        rw [← hunchanged]
        exact ((entry_turn hi).mp hentry).2
    refine ⟨m, List.mem_filter.mpr ⟨hm, ?_⟩, halive, by omega⟩
    obtain ⟨i, -, hi, -⟩ := halive
    rw [hi]
    rfl
  · refine entries_length_le (w := fun m key => Draws key m.2) accounted.pending
      (fun _ _ _ => draws_unique) ?_ hrate hnow
    intro key it hit
    obtain ⟨m, hm, hdraws, hexpiry⟩ := accounted.drawn key it hit
    have hfresh := (pending_turn hit).2
    refine ⟨m, List.mem_filter.mpr ⟨hm, ?_⟩, hdraws, by omega⟩
    obtain ⟨i, -, -, hi, -⟩ := hdraws
    rw [hi]
    rfl

instance (longest : ℕ) (h : Rounds) (s : SignalingServer) (r : Round) :
    Decidable (Ordinary longest h s r) := inferInstanceAs (Decidable (_ ∧ ∀ d ∈ r.incoming, _))

def registering : List Round :=
  [arriving (names .register []) home 0, arriving (names .register (owned ++ nonce.val)) home 1,
    arriving (names .register []) elsewhere 2]

def searched : Round := arriving { type := .discover, destination := owned } elsewhere 40

theorem signaling_bounded_registering :
    (spent (bytesOut reference) ((((rounds registering).2, searched)) :: (rounds registering).1) ≤
      spent bytesIn (((rounds registering).2, searched) :: (rounds registering).1) +
        3 * (((rounds registering).2, searched) :: (rounds registering).1).countP
          fun m => m.2.incoming.isSome) ∧
    ((rounds registering).2.pending.entries.length = 1 ∧
      (turn reference (rounds registering).2 searched).pending.entries.length = 0) := by
  have hrun : Run (turn reference) (Ordinary 3) (start {}) (rounds registering).1
      (rounds registering).2 := Run.replay_run .start (by decide +kernel)
  have hordinary : Ordinary 3 (rounds registering).1 (rounds registering).2 searched := by
    decide +kernel
  exact ⟨(signaling_bounded hrun hordinary).1, by decide +kernel, by decide +kernel⟩

end OpenMesh.Signaling.Traffic
