import OpenMesh.Messaging.Integrity
import OpenMesh.Messaging.Punching
import OpenMesh.Relay.Traffic

namespace OpenMesh.System.Network

open OpenMesh.Core.Buffers OpenMesh.Core.Hex OpenMesh.Crypto.Primitives
open OpenMesh.Crypto.Reference OpenMesh.Library.Runs
open OpenMesh.Protocol.Envelope OpenMesh.Protocol.EnvelopeCodec OpenMesh.Net.Transport
open OpenMesh.Storage.Database OpenMesh.Messaging.Sessions OpenMesh.Messaging.Operations
open OpenMesh.Messaging.Sides OpenMesh.Messaging.Projection OpenMesh.Messaging.Frames
open OpenMesh.Messaging.Handling OpenMesh.Messaging.Simulation OpenMesh.Messaging.Pairs
open OpenMesh.Messaging.Integrity
open OpenMesh.Messaging.Punching (homes kMaxDatagram Probing probing_call key_ne_nil)
open OpenMesh.Relay.Router OpenMesh.Relay.Server OpenMesh.Relay.Traffic

/-- The addresses at which the two peers and the relay are seen. -/
structure Net where
  home : Party → Endpoint
  relay : Endpoint
  apart : ∀ X, home X ≠ relay

structure Mesh where
  engines : Engines
  relay : RelayServer
  forwarded : List Forward := []

inductive Event where
  | call (m : Move)
  | turn (r : Round)

def Mesh.step (C : Sodium) (w : Mesh) : Event → Mesh
  | .call m => { w with engines := w.engines.step C m }
  | .turn r => { w with
      relay := (runOnce w.relay r).1
      forwarded := w.forwarded ++ (runOnce w.relay r).2 }

/-- The network can bring the datagram to the address: one of the engines or the relay has sent it
there. It may come late, more than once or not at all. -/
def Mesh.Carries (w : Mesh) (N : Net) (dest : Endpoint) (d : Datagram) : Prop :=
  (∃ X, d.origin = N.home X ∧ ∃ p ∈ (w.engines X).socket.sent, p.1 = dest ∧
    (serialize p.2).length ≤ kMaxDatagram ∧ d.data = serialize p.2) ∨
  d.origin = N.relay ∧ ∃ f ∈ w.forwarded, f.dest = dest ∧ d.data = f.datagram

instance (w : Mesh) (N : Net) (dest : Endpoint) (d : Datagram) : Decidable (w.Carries N dest d) :=
  inferInstanceAs (Decidable (_ ∨ _))

variable {C : Sodium} (N : Net) (K : Keyring C)

/-- Nothing comes in anywhere but what was sent there. -/
def Posted (w : Mesh) : Event → Prop
  | .call m => ∀ d ∈ datagram m.2.2, w.Carries N (N.home m.1) d
  | .turn r => ∀ d ∈ r.incoming, w.Carries N N.relay d

/-- Nor is a store opened, and no counter wraps around. -/
def Fair (w : Mesh) : Event → Prop
  | .call m => Keeping m ∧ Unwrapped K w.engines m
  | .turn _ => True

instance (w : Mesh) (i : Event) : Decidable (Posted N w i) := by
  cases i
  · exact inferInstanceAs (Decidable (∀ d ∈ datagram _, _))
  · exact inferInstanceAs (Decidable (∀ d ∈ Round.incoming _, _))

instance (w : Mesh) (i : Event) : Decidable (Fair K w i) := by
  cases i
  · exact inferInstanceAs (Decidable (_ ∧ _))
  · exact inferInstanceAs (Decidable True)

def calls : History Mesh Event → History Engines Move
  | [] => []
  | (w, .call m) :: h => (w.engines, m) :: calls h
  | (_, .turn _) :: h => calls h

/-- What holds of the whole system: the relay knows each of the two where it is, and has passed on
only what one of the two has sent, and only to whom it names. -/
structure Honest (config : Config) (w : Mesh) : Prop where
  ready : Ready K w.engines
  unchanged : w.relay.config = config
  routes : ∀ key entry, w.relay.routes.routes.lookup key = some entry →
    ∃ X, key = toHex (K.key X) ∧ entry.endpoint = N.home X
  forwarded : ∀ f ∈ w.forwarded, ∃ X, ∃ p ∈ (w.engines X).socket.sent, p.1 = N.relay ∧
    Fits p.2 ∧ f.datagram = serialize p.2 ∧ ∃ Y, p.2.destination = K.key Y ∧ f.dest = N.home Y

variable {N K} {config : Config} {w : Mesh}

theorem sent_fits {es : Engines} (ready : Ready K es) {X : Party} {p : Endpoint × Packet}
    (hp : p ∈ (es X).socket.sent) (hlen : (serialize p.2).length ≤ kMaxDatagram) : Fits p.2 := by
  rw [serialize_length, kMaxDatagram] at hlen
  refine ⟨?_, by omega, by omega, by omega⟩
  have hwritten := (ready.sound X).wire p hp
  generalize p.2 = packet at hwritten
  cases hwritten with
  | hello destination => rfl
  | sealed env s type text hv _ _ _ =>
    rw [Engine.sealedPacket, Session.encryptAs_packet env.nonce hv type text]
    rfl

theorem sent_source {es : Engines} (ready : Ready K es) {X : Party} {p : Endpoint × Packet}
    (hp : p ∈ (es X).socket.sent) : p.2.source = K.key X :=
  ((ready.sound X).wire p hp).source.trans (ready.localPublic X)

theorem grows_call (env : Env) (e : Engine) (c : Engine.Call) :
    e.socket.sent ⊆ (e.call C env c).1.socket.sent := by
  have haside : ∀ {e₁ e₂ : Engine}, Aside e₁ e₂ → e₁.socket.sent ⊆ e₂.socket.sent := by
    intro e₁ e₂ h
    obtain ⟨hellos, hsent, -⟩ := h.sent
    rw [hsent]
    exact List.subset_append_left _ _
  cases (probing_call e c : Probing env e c (e.call C env c).1) with
  | quiet h =>
    obtain ⟨ps, hps, -⟩ := h.sent
    rw [hps]
    exact List.subset_append_left _ _
  | announced relay _ he =>
    rw [he]
    exact haside (aside_transmit env e relay [])
  | started e₁ r candidate _ hq he =>
    obtain ⟨ps, hps, -⟩ := hq.sent
    rw [he]
    refine List.Subset.trans ?_ (haside ((aside_punches env r).startProbing e₁ candidate))
    rw [hps]
    exact List.subset_append_left _ _
  | ticked he =>
    rw [he]
    exact haside (aside_tick env e)
  | probed r origin he =>
    rw [he]
    exact haside ((aside_punches env r).handleProbe e origin)

theorem grows_step (es : Engines) (m : Move) (X : Party) :
    (es X).socket.sent ⊆ (es.step C m X).socket.sent := by
  by_cases hX : X = m.1
  · subst hX
    rw [Engines.step, Function.update_self]
    exact grows_call m.2.1 _ m.2.2
  · rw [Engines.step, Function.update_of_ne hX]
    exact List.Subset.refl _

/-- Wherever a datagram comes in, one of the engines has written it. -/
theorem Honest.carries (honest : Honest N K config w) {dest : Endpoint} {d : Datagram}
    (h : w.Carries N dest d) :
    ∃ X, ∃ p ∈ (w.engines X).socket.sent, Fits p.2 ∧ d.data = serialize p.2 := by
  obtain ⟨X, -, p, hp, -, hlen, hd⟩ | ⟨-, f, hf, -, hd⟩ := h
  · exact ⟨X, p, hp, sent_fits honest.ready hp hlen, hd⟩
  · obtain ⟨X, p, hp, -, hfits, hdata, -⟩ := honest.forwarded f hf
    exact ⟨X, p, hp, hfits, hd.trans hdata⟩

theorem Honest.heard (honest : Honest N K config w) {d : Datagram} (h : w.Carries N N.relay d) :
    ∃ X, d.origin = N.home X ∧ ∃ p ∈ (w.engines X).socket.sent, p.1 = N.relay ∧ Fits p.2 ∧
      d.data = serialize p.2 := by
  obtain ⟨X, horigin, p, hp, hdest, hlen, hd⟩ | ⟨-, f, hf, hdest, -⟩ := h
  · exact ⟨X, horigin, p, hp, hdest, sent_fits honest.ready hp hlen, hd⟩
  · obtain ⟨X, p, -, -, -, -, Y, -, hhome⟩ := honest.forwarded f hf
    exact absurd (hhome.symm.trans hdest) (N.apart Y)

theorem parsed {p q : Packet} {d : Datagram} (hfits : Fits p) (hd : d.data = serialize p)
    (hq : deserialize (receive d).data = some q) : q = p ∧ (receive d).data = serialize p := by
  have hcut := hq
  rw [receive, hd] at hcut
  have heq := deserialize_take hfits hcut
  exact ⟨heq, by rw [(serialize_deserialize hq).2, heq]⟩

theorem honest_call (honest : Honest N K config w) (m : Move) :
    Honest N K config (w.step C (.call m)) where
  ready := honest.ready.step m
  unchanged := honest.unchanged
  routes := honest.routes
  forwarded f hf := by
    obtain ⟨X, p, hp, hrest⟩ := honest.forwarded f hf
    exact ⟨X, p, grows_step w.engines m X hp, hrest⟩

theorem honest_turn (honest : Honest N K config w) {r : Round}
    (posted : ∀ d ∈ r.incoming, w.Carries N N.relay d) :
    Honest N K config (w.step C (.turn r)) := by
  have hhandle : ∀ d ∈ r.incoming, ∀ key entry,
      (w.relay.handle (receive d).data (receive d).origin r.now).1.routes.routes.lookup key =
        some entry → ∃ X, key = toHex (K.key X) ∧ entry.endpoint = N.home X := by
    intro d hd key entry hentry
    obtain ⟨X, horigin, p, hp, -, hfits, hdata⟩ := honest.heard (posted d hd)
    by_cases hheard : ∃ q, deserialize (receive d).data = some q ∧ key = toHex q.source
    · obtain ⟨q, hq, rfl⟩ := hheard
      have hsource : q.source = K.key X := by
        rw [(parsed hfits hdata hq).1]
        exact sent_source honest.ready hp
      have hroute := hears_route (s := w.relay)
        (i := .handle (receive d).data (receive d).origin r.now) (key_ne_nil X)
        ⟨_, q, rfl, hq, hsource⟩
      rw [hsource] at hentry
      rw [RelayServer.step, hentry] at hroute
      obtain rfl := Option.some.inj hroute
      exact ⟨X, by rw [hsource], horigin⟩
    · rw [handle_route] at hentry
      · exact honest.routes key entry hentry
      · intro q hq _ hkey
        exact hheard ⟨q, hq, hkey⟩
  refine ⟨honest.ready, (config_turn w.relay r).trans honest.unchanged, ?_, ?_⟩
  · intro key entry hentry
    rw [Mesh.step] at hentry
    unfold runOnce at hentry
    cases hin : r.incoming with
    | none =>
      rw [hin] at hentry
      simp only [Option.map_none, RelayServer.expire, RouteTable.entry_expire,
        Option.filter_eq_some_iff] at hentry
      exact honest.routes key entry hentry.1
    | some d =>
      rw [hin] at hentry
      simp only [Option.map_some, RelayServer.expire, RouteTable.entry_expire,
        Option.filter_eq_some_iff] at hentry
      exact hhandle d hin key entry hentry.1
  · intro f hf
    obtain hf | hf := List.mem_append.mp hf
    · exact honest.forwarded f hf
    · unfold runOnce at hf
      cases hin : r.incoming with
      | none =>
        rw [hin] at hf
        cases hf
      | some d =>
        rw [hin] at hf
        have hf : f ∈ (w.relay.handle (receive d).data (receive d).origin r.now).2 :=
          List.mem_of_mem_filter hf
        obtain ⟨X, horigin, p, hp, hdest, hfits, hdata⟩ := honest.heard (posted d hin)
        cases hq : deserialize (receive d).data with
        | none =>
          rw [RelayServer.handle, hq] at hf
          cases hf
        | some q =>
          obtain ⟨rfl, hwhole⟩ := parsed hfits hdata hq
          rw [handle_forwards hq] at hf
          split at hf
          · cases hf
          · have hf := Option.map_eq_some_iff.mp (Option.mem_toList.mp hf)
            obtain ⟨endpoint, hroute, rfl⟩ := hf
            obtain ⟨entry, hentry, hendpoint⟩ := Option.map_eq_some_iff.mp hroute
            obtain ⟨Y, hkey, hhome⟩ := hhandle d hin _ entry hentry
            exact ⟨X, p, hp, hdest, hfits, hwhole, Y, toHex_injective hkey,
              hendpoint.symm.trans hhome⟩

theorem honest_step (honest : Honest N K config w) {i : Event} (posted : Posted N w i) :
    Honest N K config (w.step C i) := by
  cases i with
  | call m => exact honest_call honest m
  | turn r => exact honest_turn honest posted

theorem honest_start {es₀ : Engines} (hstart : ∀ X, Started C (K.identity X) (es₀ X)) :
    Honest N K config ⟨es₀, { config }, []⟩ where
  ready := ready_started hstart
  unchanged := rfl
  routes _ _ hentry := by cases hentry
  forwarded _ hf := absurd hf List.not_mem_nil

variable {es₀ : Engines} {h : History Mesh Event}
variable {ok : History Mesh Event → Mesh → Event → Prop}

theorem honest_run (hstart : ∀ X, Started C (K.identity X) (es₀ X))
    (run : Run (Mesh.step C) (fun h w i => Posted N w i ∧ ok h w i) ⟨es₀, { config }, []⟩ h w) :
    Honest N K config w :=
  run.invariant (fun _ w => Honest N K config w) (honest_start hstart)
    fun _ _ _ _ honest posted => honest_step honest posted.1

/-- What gets through to one of the engines is a letter of the other. -/
theorem permits_call (honest : Honest N K config w) {m : Move} (posted : Posted N w (.call m)) :
    (view K w.engines).Permits (m.view K w.engines) := by
  refine ⟨allows_call m.2.1 (w.engines m.1) m.2.2 _, fun l hl => ?_⟩
  obtain ⟨X, env, c⟩ := m
  have hd : act C env (w.engines X) (K.key X.other) c = .deliver l := hl
  have hc := act_call (C := C) env (w.engines X) (K.key X.other) c
  rw [hd] at hc
  obtain ⟨incoming, rfl, hb⟩ := hc
  obtain ⟨q, hq, -, -, hsource, hdest, hlet⟩ := brought_eq_some_iff.mp hb
  rw [honest.ready.common] at hlet
  rw [honest.ready.localPublic] at hdest
  obtain ⟨d, hin, hq⟩ := Option.bind_eq_some_iff.mp hq
  obtain ⟨Y, p, hp, hfits, hdata⟩ := honest.carries (posted d hin)
  obtain ⟨rfl, -⟩ := parsed hfits hdata hq
  obtain rfl : Y = X.other := K.key_injective ((sent_source honest.ready hp).symm.trans hsource)
  refine (mem_letters honest.ready).mpr ⟨p, hp, ?_, hlet⟩
  rw [Party.other_other]
  exact hdest

/-- The engines of a mesh do what two engines do on their own, and the network keeps to its rules
with a relay in it. -/
theorem run_pair (hstart : ∀ X, Started C (K.identity X) (es₀ X))
    (run : Run (Mesh.step C) (fun _ w i => Posted N w i ∧ Fair K w i) ⟨es₀, { config }, []⟩ h w) :
    Run Pair.step (fun _ p m => p.Permits m ∧ (p m.1).counter ≤ ((p m.1).act m.2).counter)
      (view K es₀) (views K (calls h)) (view K w.engines) := by
  induction run with
  | start => exact .start
  | @move h w i before hok ih =>
    obtain ⟨posted, fair⟩ := hok
    have honest := honest_run hstart before
    cases i with
    | turn r => exact ih
    | call m =>
      have hview := view_step honest.ready fair.1
      rw [Mesh.step, hview]
      exact .move ih ⟨permits_call honest posted, fair.2.counter honest.ready fair.1⟩

/-- Whatever the network does with the datagrams, and whichever of them take the way over the relay:
the relay sends only what one of the two has sent to it, unchanged, and only to the home of the one
it names; and each records and hands over, in the order of sending and without repetition, only what
the other's `send` has put on the wire. -/
theorem mesh_safe (hstart : ∀ X, Started C (K.identity X) (es₀ X))
    (run : Run (Mesh.step C) (fun _ w i => Posted N w i ∧ Fair K w i) ⟨es₀, { config }, []⟩ h w) :
    (∀ f ∈ w.forwarded, ∃ X Y packet, (N.relay, packet) ∈ (w.engines X).socket.sent ∧
      f.datagram = serialize packet ∧ packet.destination = K.key Y ∧ f.dest = N.home Y) ∧
    ∀ X, ∃ recorded handed,
      received (w.engines X.other).contacts.messages (K.key X) =
        received (es₀ X.other).contacts.messages (K.key X) ++ recorded ∧
      handedOver (w.engines X.other).messageHandler.calls (K.key X) = handed ∧
      handed.Sublist recorded ∧ recorded.Sublist (sentTexts K X (calls h)) := by
  constructor
  · intro f hf
    obtain ⟨X, ⟨dest, packet⟩, hp, rfl, -, hdata, Y, hdest, hhome⟩ :=
      (honest_run hstart run).forwarded f hf
    exact ⟨X, Y, packet, hp, hdata, hdest, hhome⟩
  · intro X
    have hsides : ∀ Y, (view K es₀ Y).Starting := fun Y => side_started (hstart Y) _
    have ledger := ledger_run (X := X) hsides (run_pair hstart run)
    obtain ⟨got, hsub, hinc, -, hinbox, handed, hhanded, hle⟩ := ledger.heard
    have hall : (messages (view K w.engines X)).Pairwise fun l l' => l.counter < l'.counter :=
      ledger.increasing.filter _
    have hsublist := sublist_of_increasing (fun l : Letter => l.counter.toNat) hinc hall hsub
    refine ⟨got.map (·.text), handed, ?_, ?_, hle, ?_⟩
    · simpa only [view, side, Party.other_other] using hinbox
    · rw [(hsides X.other).handed, List.nil_append] at hhanded
      simpa only [view, side, Party.other_other] using hhanded
    · rw [← told_views, ← ledger.told]
      exact hsublist.map _

def square : Net := ⟨homes, address, by intro X; cases X <;> decide⟩

def hello (X : Party) : Datagram :=
  ⟨homes X, serialize { type := .hello, source := twoParties.key X }⟩

def always (_ : Endpoint) (_ : Bytes) : Bool := true

def doubled : List Event :=
  [.call (.A, clock, .addPeer (twoParties.key .B) address),
    .call (.B, clock, .addPeer (twoParties.key .A) address),
    .call (.B, clock, .announceTo address),
    .turn ⟨some (hello .B), 100, always⟩,
    .call (.A, clock, .send (twoParties.key .B) [7]),
    .turn ⟨some { box .A 0 .message [7] with origin := homes .A }, 130, always⟩,
    .call (.B, clock, .poll (some (box .A 0 .message [7]))),
    .call (.B, clock, .poll (some (box .A 0 .message [7])))]

def played (script : List Event) : History Mesh Event × Mesh :=
  Run.replay (Mesh.step reference) [] ⟨newEngines, {}, []⟩ script

theorem mesh_safe_doubled :
    (played doubled).2.forwarded = [⟨homes .B, (box .A 0 .message [7]).data⟩] ∧
      received ((played doubled).2.engines .B).contacts.messages (twoParties.key .A) = [[7]] ∧
      ∃ recorded handed,
        received ((played doubled).2.engines .B).contacts.messages (twoParties.key .A) =
          received (newEngines .B).contacts.messages (twoParties.key .A) ++ recorded ∧
        handedOver ((played doubled).2.engines .B).messageHandler.calls (twoParties.key .A) =
          handed ∧
        handed.Sublist recorded ∧
        recorded.Sublist (sentTexts twoParties .A (calls (played doubled).1)) := by
  have run : Run (Mesh.step reference) (fun _ w i => Posted square w i ∧ Fair twoParties w i)
      ⟨newEngines, { config := {} }, []⟩ (played doubled).1 (played doubled).2 :=
    Run.replay_run .start (by decide +kernel)
  have h := (mesh_safe newEngines_started run).2 .A
  simp only [Party.other] at h
  exact ⟨by decide +kernel, by decide +kernel, h⟩

end OpenMesh.System.Network
