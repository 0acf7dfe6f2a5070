import OpenMesh.Net.Client
import OpenMesh.Signaling.Challenges

namespace OpenMesh.Signaling.Ownership

open OpenMesh.Core.Buffers OpenMesh.Core.Hex OpenMesh.Crypto.Primitives
open OpenMesh.Crypto.Reference OpenMesh.Library.Runs OpenMesh.Protocol.Envelope
open OpenMesh.Net.Transport OpenMesh.Net.Client
open OpenMesh.Signaling.Server OpenMesh.Signaling.Steps OpenMesh.Signaling.Routability
open OpenMesh.Signaling.Challenges

/-- A signaling server, and the clients that the owner of a key runs against this and other
servers. Everyone else is the network: any packet may reach the server from anywhere, and any
datagram the clients. -/
structure System where
  server : SignalingServer
  clients : Nat → SignalingClient

inductive Move where
  | server (i : SignalingServer.Input)
  | client (k : Nat) (e : Event)

abbrev Story := History System Move

variable (C : Sodium)

def System.step (w : System) : Move → System
  | .server i => { w with server := w.server.step C i }
  | .client k e => { w with clients := Function.update w.clients k ((w.clients k).step e).1 }

/-- What one of the clients signs and sends off in a move: the challenge and the signature. -/
def signed (m : System × Move) : Option (Bytes × Bytes) :=
  match m.2 with
  | .client k e => ((m.1.clients k).signs e).map fun challenge =>
    (challenge, (m.1.clients k).sign challenge)
  | .server _ => none

/-- Nobody but the clients can sign what is pending for the key, and the challenges are too
random to have been signed before. -/
structure Secure (key : Bytes) (h : Story) (w : System) (m : Move) : Prop where
  unforged : ∀ packet origin now challenge it, m = .server (.handle packet origin now challenge) →
    packet.source = key → w.server.pending.lookup (toHex key) = some it →
      verifyDetached C packet.payload it.challenge key →
        ∃ m' ∈ h, signed m' = some (it.challenge.val, packet.payload)
  unguessed : ∀ i origin now challenge, m = .server i → Challenges key origin now challenge i →
    ∀ m' ∈ h, ∀ signature, signed m' ≠ some (challenge.val, signature)

/-- The address of the server, the addresses that it sees the packets of the clients come from,
and their key. -/
structure Setting where
  address : Endpoint
  seenAt : Nat → Endpoint
  key : Bytes

variable (S : Setting)

/-- A client has itself sent the signature to the server in a REGISTER, from the endpoint. -/
def Sent (origin : Endpoint) (signature : Bytes) (h : Story) : Prop :=
  ∃ m ∈ h, ∃ k e, m.2 = .client k e ∧ (m.1.clients k).server = S.address ∧ S.seenAt k = origin ∧
    { type := .register, source := S.key, payload := signature } ∈ ((m.1.clients k).step e).2

/-- Whatever registration the server would now accept for the key, from wherever, is one
that a client has sent it from there. -/
def Bound (h : Story) (w : System) : Prop :=
  ∀ packet origin now challenge it,
    Secure C S.key h w (.server (.handle packet origin now challenge)) →
      Registers C S.key origin now it w.server (.handle packet origin now challenge) →
        Sent S origin packet.payload h

/-- A challenge that is pending at the server is signed for the server, and where it is
pending. -/
def Direct (h : Story) (m : System × Move) : Prop :=
  ∀ it signature, m.1.server.pending.lookup (toHex S.key) = some it →
    signed m = some (it.challenge.val, signature) → Sent S it.endpoint signature (m :: h)

def Owned (w : System) : Prop :=
  ∀ k, (w.clients k).publicKey = S.key ∧
    ∀ challenge : Challenge, verifyDetached C ((w.clients k).sign challenge) challenge S.key

variable {C S} {h : Story} {w : System} {m : Move}

theorem Sent.cons {origin : Endpoint} {signature : Bytes} (hs : Sent S origin signature h)
    (m : System × Move) : Sent S origin signature (m :: h) := by
  obtain ⟨m', hm, hall⟩ := hs
  exact ⟨m', List.mem_cons_of_mem m hm, hall⟩

theorem signed_client {challenge signature : Bytes}
    (hs : signed (w, m) = some (challenge, signature)) :
    ∃ k e, m = .client k e ∧ (w.clients k).signs e = some challenge ∧
      (w.clients k).sign challenge = signature := by
  cases m with
  | server i => cases hs
  | client k e =>
    obtain ⟨challenge', hsigns, heq⟩ := Option.map_eq_some_iff.mp hs
    cases heq
    exact ⟨k, e, rfl, hsigns, rfl⟩

theorem sent_signed {k : Nat} {e : Event} {challenge signature : Bytes} (owned : Owned C S w)
    (hserver : (w.clients k).server = S.address)
    (hs : signed (w, .client k e) = some (challenge, signature)) :
    Sent S (S.seenAt k) signature ((w, .client k e) :: h) := by
  obtain ⟨k', e', hm, hsigns, rfl⟩ := signed_client hs
  cases hm
  refine ⟨_, List.mem_cons_self, k, e, rfl, hserver, rfl, ?_⟩
  rw [SignalingClient.signs_sends hsigns, SignalingClient.signedRegister, (owned k).1]
  exact List.mem_singleton_self _

theorem owned_step (owned : Owned C S w) (m : Move) : Owned C S (w.step C m) := by
  cases m with
  | server i => exact owned
  | client k e =>
    obtain ⟨-, hkey, hsigner⟩ := (w.clients k).step_fixed e
    intro k'
    by_cases hk : k' = k
    · subst hk
      simp only [System.step, Function.update_self, SignalingClient.sign, hkey, hsigner]
      exact owned k'
    · simp only [System.step, Function.update_of_ne hk]
      exact owned k'

/-- A signature for what is pending registers the key where it is pending, whoever brings it. -/
theorem registers_pending {s : SignalingServer} {key signature : Bytes} {it : Pending}
    (hp : s.pending.lookup (toHex key) = some it)
    (hver : verifyDetached C signature it.challenge key) :
    Registers C key it.endpoint it.expiry it s (.handle
      { type := .register, source := key, payload := signature } it.endpoint it.expiry
        it.challenge) := by
  obtain ⟨hsig, hkey⟩ := verifyDetached_lengths hver
  exact ⟨signature, ⟨⟨_, _, rfl, rfl, rfl, hkey, rfl, hsig⟩, hp, le_rfl, rfl⟩, hver⟩

theorem registers_inv {s : SignalingServer} {key : Bytes} {packet : Packet} {origin : Endpoint}
    {now now' : Int} {challenge : Challenge} {it : Pending}
    (hr : Registers C key origin now it s (.handle packet origin now' challenge)) :
    packet.source = key ∧ s.pending.lookup (toHex key) = some it ∧ it.endpoint = origin ∧
      verifyDetached C packet.payload it.challenge key := by
  obtain ⟨signature, ⟨⟨packet', challenge', hi, -, hsource, -, hpayload, -⟩, hp, -, hend⟩, hver⟩ := hr
  cases hi
  exact ⟨hsource, hp, hend, hpayload ▸ hver⟩

theorem bound_client (hbound : Bound C S ((w, m) :: h) (w.step C m)) (owned : Owned C S w) :
    Direct S h (w, m) := by
  intro it signature hp hs
  obtain ⟨k, e, rfl, hsigns, rfl⟩ := signed_client hs
  have hver := (owned k).2 it.challenge
  refine hbound _ it.endpoint it.expiry it.challenge it ⟨?_, ?_⟩ (registers_pending hp hver)
  · intro packet origin now challenge it' hi _ hp' _
    cases hi
    obtain rfl : it = it' := Option.some.inj (hp.symm.trans hp')
    exact ⟨_, List.mem_cons_self, hs⟩
  · rintro i origin now challenge hi ⟨packet, rfl, -, -, -, hempty⟩
    cases hi
    have hlen := (verifyDetached_lengths hver).1
    dsimp only at hempty
    rw [hempty] at hlen
    cases hlen

theorem bound_direct (secure : Secure C S.key h w m) (bound : Bound C S h w)
    (direct : Direct S h (w, m)) : Bound C S ((w, m) :: h) (w.step C m) := by
  intro packet origin now challenge it secure' hr
  obtain ⟨hsource, hp, hend, hver⟩ := registers_inv hr
  obtain ⟨m', hm', hs⟩ := secure'.unforged packet origin now challenge it rfl hsource hp hver
  have hold : w.server.pending.lookup (toHex S.key) = some it →
      Sent S origin packet.payload ((w, m) :: h) := by
    intro hp
    obtain rfl | hm' := List.mem_cons.mp hm'
    · exact hend ▸ direct it packet.payload hp hs
    · obtain ⟨signature, ⟨hi, -, hrest⟩, hsignature⟩ := hr
      refine (bound packet origin now challenge it ⟨?_, ?_⟩
        ⟨signature, ⟨hi, hp, hrest⟩, hsignature⟩).cons (w, m)
      · intro packet' origin' now' challenge' it' hi' _ hp' _
        cases hi'
        obtain rfl : it = it' := Option.some.inj (hp.symm.trans hp')
        exact ⟨m', hm', hs⟩
      · exact fun i' origin' now' challenge' hi' hc m'' hm'' =>
          secure'.unguessed i' origin' now' challenge' hi' hc m'' (List.mem_cons_of_mem _ hm'')
  cases m with
  | client k e => exact hold hp
  | server i =>
    cases step_effect (C := C) S.key w.server i with
    | none _ hpending => exact hold (hpending ▸ hp)
    | challenged origin' now' challenge' hc _ hpending =>
      rw [System.step, hpending] at hp
      obtain rfl := Option.some.inj hp
      obtain rfl | hm' := List.mem_cons.mp hm'
      · cases hs
      · exact absurd hs (secure.unguessed i origin' now' challenge' rfl hc m' hm' packet.payload)
    | refused _ _ _ _ _ _ _ hpending =>
      rw [System.step, hpending] at hp
      cases hp
    | registered _ _ _ _ _ hpending =>
      rw [System.step, hpending] at hp
      cases hp
    | refreshed _ _ _ _ _ hpending => exact hold (hpending ▸ hp)
    | removed _ _ _ _ hpending => exact hold (hpending ▸ hp)
    | swept now' _ _ hpending =>
      rw [System.step, hpending] at hp
      exact hold (Option.filter_eq_some_iff.mp hp).1

variable {s₀ : System}

theorem owned_run (owned : Owned C S s₀)
    (run : Run (System.step C) (Secure C S.key) s₀ h w) : Owned C S w :=
  run.invariant (fun _ w => Owned C S w) owned fun _ _ m _ owned _ => owned_step owned m

theorem bound_iff_direct {config : Config} {clients : Nat → SignalingClient}
    (owned : Owned C S ⟨start config, clients⟩)
    (run : Run (System.step C) (Secure C S.key) ⟨start config, clients⟩ h w) :
    Run.Throughout (Bound C S) h w ↔ Run.Each (Direct S) h := by
  refine run.throughout_iff ?_ fun h w m run bound secure => ?_
  · intro packet origin now challenge it _ hr
    obtain ⟨-, hp, -⟩ := registers_inv hr
    cases hp
  · exact ⟨fun hbound => bound_client hbound (owned_run owned run), bound_direct secure bound⟩

/-- Where no client ever signs a challenge that is pending elsewhere, every registration of the
key is owed to a client that has itself sent it to the server from there. -/
theorem registered_sent {config : Config} {clients : Nat → SignalingClient}
    (owned : Owned C S ⟨start config, clients⟩)
    (run : Run (System.step C) (Secure C S.key) ⟨start config, clients⟩ h w)
    (direct : Run.Each (Direct S) h) {newer older : Story} {v : System} {packet : Packet}
    {origin : Endpoint} {now : Int} {challenge : Challenge} {it : Pending}
    (hsplit : h = newer ++ (v, .server (.handle packet origin now challenge)) :: older)
    (hr : Registers C S.key origin now it v.server (.handle packet origin now challenge)) :
    Sent S origin packet.payload older := by
  subst hsplit
  exact ((bound_iff_direct owned run).mpr direct).before packet origin now challenge it
    run.cut.2 hr

/-- Throughout a run, the server accepts a registration for the key only from the
client that has sent it, exactly if no client ever signs a challenge that is pending elsewhere. -/
theorem ownership_bound {config : Config} {clients : Nat → SignalingClient}
    (owned : Owned C S ⟨start config, clients⟩)
    (run : Run (System.step C) (Secure C S.key) ⟨start config, clients⟩ h w) :
    (Run.Throughout (Bound C S) h w ↔ Run.Each (Direct S) h) ∧
    (Run.Each (Direct S) h → ∀ newer v packet origin now challenge older it,
      h = newer ++ (v, .server (.handle packet origin now challenge)) :: older →
        Registers C S.key origin now it v.server (.handle packet origin now challenge) →
          Sent S origin packet.payload older) := by
  refine ⟨bound_iff_direct owned run, ?_⟩
  intro direct newer v packet origin now challenge older it hsplit hr
  exact registered_sent owned run direct hsplit hr

def setting : Setting := ⟨⟨[83], 3⟩, fun _ => home, owned⟩

def owner (server : Endpoint) : System where
  server := start {}
  clients _ := { server, publicKey := owned, signer := some fun challenge => owned ++ challenge }

def hello : Packet := { type := .hello, payload := nonce.val }

/-- The client begins to register with its server. Its packets, or packets that look like them,
reach the server of this model from the given endpoint, and the challenge comes back to it. -/
def asking (server origin : Endpoint) : List Move :=
  [.client 0 (.registerSelf 1), .client 0 (.send true),
   .server (.handle (names .register []) origin 0 nonce),
   .client 0 (.receive ⟨server, serialize hello⟩ true)]

def asked (server origin : Endpoint) : Story × System :=
  Run.replay (System.step reference) [] (owner server) (asking server origin)

def presented (origin : Endpoint) : SignalingServer.Input :=
  .handle (names .register (owned ++ nonce.val)) origin 0 nonce

theorem owner_owned (server : Endpoint) : Owned reference setting (owner server) := by
  refine fun k => ⟨rfl, fun challenge => ?_⟩
  have hlen : (owned ++ challenge.val).length = kSignatureBytes := by
    rw [List.length_append, challenge.property]
    rfl
  show verifyDetached reference (owned ++ challenge.val) challenge owned = true
  rw [verifyDetached, if_neg (by simp only [hlen]; decide)]
  exact decide_eq_true rfl

theorem awaited_hello (e : Endpoint) : awaited .hello ⟨e, serialize hello⟩ = some hello := by
  have hd : deserialize ((serialize hello).take kReceiveBufferSize) = some hello := by
    decide +kernel
  simp only [awaited, receive, hd]
  rfl

variable (server origin : Endpoint)

theorem asked_pending : (asked server origin).2.server.pending.lookup (toHex owned) =
    some ⟨nonce, origin, 0 + 30⟩ :=
  challenges_pending (s := start {}) ⟨names .register [], rfl, rfl, rfl, rfl, rfl⟩

theorem asked_signed : (asked server origin).1.map signed =
    [some (nonce.val, owned ++ nonce.val), none, none, none] := by
  have hsigns : ∀ w : System, w.clients 0 =
        { (owner server).clients 0 with phase := .awaitHello 0 } →
      signed (w, .client 0 (.receive ⟨server, serialize hello⟩ true)) =
        some (nonce.val, owned ++ nonce.val) := by
    intro w hw
    simp only [signed, hw, SignalingClient.signs, awaited_hello]
    rfl
  refine congrArg₂ List.cons (hsigns _ ?_) rfl
  rfl

theorem secure_client (h : Story) (w : System) (k : Nat) (e : Event) :
    Secure C S.key h w (.client k e) where
  unforged _ _ _ _ _ hi := by cases hi
  unguessed _ _ _ _ hi := by cases hi

theorem asked_run : Run (System.step reference) (Secure reference setting.key) (owner server)
    (asked server origin).1 (asked server origin).2 := by
  refine Run.replay_run .start
    ⟨secure_client _ _ _ _, secure_client _ _ _ _, ⟨?_, ?_⟩, secure_client _ _ _ _, trivial⟩
  · intro packet origin now challenge it hi _ _ hver
    cases hi
    cases (verifyDetached_lengths hver).1
  · intro i origin now challenge hi _ m hm signature
    cases hm with
    | head => nofun
    | tail _ hm => cases hm with
      | head => nofun
      | tail _ hm => cases hm

theorem presented_secure : Secure reference setting.key (asked server origin).1
    (asked server origin).2 (.server (presented origin)) where
  unforged packet origin' now challenge it hi hsource hp _ := by
    cases hi
    obtain rfl := Option.some.inj ((asked_pending server origin).symm.trans hp)
    have hmem : some (nonce.val, owned ++ nonce.val) ∈ (asked server origin).1.map signed := by
      rw [asked_signed]
      exact List.mem_cons_self
    exact List.mem_map.mp hmem
  unguessed i origin' now challenge hi hc := by
    cases hi
    obtain ⟨packet, hi, -, -, -, hempty⟩ := hc
    cases hi
    cases hempty

theorem presented_registers : Registers reference owned origin 0 ⟨nonce, origin, 30⟩
    (asked server origin).2.server (presented origin) := by
  have hver : verifyDetached reference (owned ++ nonce.val) nonce owned := by decide +kernel
  obtain ⟨hsig, hkey⟩ := verifyDetached_lengths hver
  exact ⟨owned ++ nonce.val, ⟨⟨_, _, rfl, rfl, rfl, hkey, rfl, hsig⟩,
    asked_pending server origin, (by decide : (0 : Int) ≤ 30), rfl⟩, hver⟩

/-- The client registers with the server itself, from its home. -/
theorem ownership_bound_registration :
    Sent setting home (owned ++ nonce.val) (asked setting.address home).1 := by
  have run := (asked_run setting.address home).move (presented_secure setting.address home)
  refine (ownership_bound (owner_owned setting.address) run).2 ?_ [] _ _ _ _ _ _ _ rfl
    (presented_registers setting.address home)
  refine ⟨?_, ?_, ?_, ?_, ?_, trivial⟩
  · intro it signature _ hs
    cases hs
  · intro it signature hp hs
    obtain rfl := Option.some.inj ((asked_pending setting.address home).symm.trans hp)
    have hrun := asked_run setting.address home
    rw [← List.nil_append (asked setting.address home).1] at hrun
    have hbefore := hrun.cut.1
    exact sent_signed (owned_run (owner_owned setting.address) hbefore) rfl hs
  all_goals
    intro it signature _ hs
    exact absurd hs nofun

/-- The client registers with another server, which asks to be challenged in its name and passes
the challenge on to it. It never speaks to the server at which it ends up registered. -/
theorem challenge_relayed :
    Run (System.step reference) (Secure reference setting.key) (owner elsewhere)
      (((asked elsewhere elsewhere).2, .server (presented elsewhere)) ::
        (asked elsewhere elsewhere).1)
      ((asked elsewhere elsewhere).2.step reference (.server (presented elsewhere))) ∧
    Registers reference owned elsewhere 0 ⟨nonce, elsewhere, 30⟩
      (asked elsewhere elsewhere).2.server (presented elsewhere) ∧
    ¬ Sent setting elsewhere (owned ++ nonce.val) (asked elsewhere elsewhere).1 := by
  refine ⟨(asked_run elsewhere elsewhere).move (presented_secure elsewhere elsewhere),
    presented_registers elsewhere elsewhere, ?_⟩
  rintro ⟨m, hm, k, e, hmove, hserver, hseen, -⟩
  cases hseen

end OpenMesh.Signaling.Ownership
