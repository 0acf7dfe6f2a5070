import OpenMesh.Messaging.Stops

namespace OpenMesh.Messaging.Listings

open OpenMesh.Core.Buffers OpenMesh.Core.Hex OpenMesh.Crypto.Primitives
open OpenMesh.Crypto.Reference OpenMesh.Library.Runs OpenMesh.Storage.Database
open OpenMesh.Storage.Lookup
open OpenMesh.Messaging.Operations OpenMesh.Messaging.Sides OpenMesh.Messaging.Deeds
open OpenMesh.Messaging.Lifetimes OpenMesh.Messaging.Stops OpenMesh.Messaging.Routes
open OpenMesh.Messaging.Pairs OpenMesh.Messaging.Handshake

variable (C : Sodium) (e : Engine) (m : Env × Engine.Call)

/-- The set of incoming requests, the list of pending requests and the trust say the same of
the peer, and an accepted peer cannot be rejected. -/
structure Agrees (peer : Bytes) : Prop where
  incoming : toHex peer ∈ e.incomingRequests ↔ ∃ q ∈ e.pendingRequests, q.peer = peer
  single : (e.pendingRequests.filter (·.peer = peer)).length ≤ 1
  pending : (∃ q ∈ e.pendingRequests, q.peer = peer) → e.trustOf peer = some .pending
  settled : e.trustOf peer = some .accepted → ∀ env, e.rejectContact C env peer = (e, false)

/-- The requests of a store file are of different peers, all of them pending contacts. -/
def Fair (s : Store) : Prop := ∀ peer,
  (Store.requestsOf s peer).length ≤ 1 ∧ (Store.Listed s peer → s.trustOf peer = some .pending)

/-- The peer that is made a friend, or turned down, without a look at its own request. -/
def passing : Deed → Option Bytes
  | .added peer | .settled peer _ => some peer
  | _ => none

/-- Whoever waits for an answer is neither added nor answers a request of ours. -/
def Clear : Prop := ∀ peer ∈ passing (deed C m.1 e m.2), ¬ Store.Listed e.contacts peer

variable {C e m} {peer : Bytes} {e₀ : Engine} {h : History Engine (Env × Engine.Call)}

theorem agrees_of (hincoming : toHex peer ∈ e.incomingRequests ↔ Store.Listed e.contacts peer)
    (hsingle : (Store.requestsOf e.contacts peer).length ≤ 1)
    (hpending : Store.Listed e.contacts peer → e.trustOf peer = some .pending) :
    Agrees C e peer := by
  refine ⟨hincoming, hsingle, hpending, fun htrust env => ?_⟩
  have hnot : toHex peer ∉ e.incomingRequests := by
    intro hin
    rw [hpending (hincoming.mp hin)] at htrust
    cases htrust
  rw [Engine.rejectContact, Engine.answerContact, if_pos hnot]

theorem clear_of {d : Deed} (hd : deed C m.1 e m.2 = d) (hpassing : passing d = none) :
    Clear C e m := by
  intro peer hpeer
  rw [hd, hpassing] at hpeer
  cases hpeer

def whole (m : Env × Engine.Call) : Turn := ⟨m.1, m.2, none⟩

theorem lawful_whole (hc : m.2.reopens = false) : Lawful C e (whole m) :=
  ⟨hc, fun _ hs => nomatch hs⟩

theorem complete_whole : Complete C e (whole m) := fun _ hs => nomatch hs

theorem pending_step (hc : m.2.reopens = false)
    (hold : Store.Listed e.contacts peer → e.trustOf peer = some .pending) :
    (Store.Listed (engineStep C e m).contacts peer →
      (engineStep C e m).trustOf peer = some .pending) ↔
      (about (deed C m.1 e m.2) = some peer → Clear C e m) := by
  have hlisted := turn_listed (lawful_whole (C := C) (e := e) hc) peer
  have htrust := turn_trustOf (lawful_whole (C := C) (e := e) hc) peer
  change (Store.Listed (turn C e (whole m)).contacts peer →
    (turn C e (whole m)).trustOf peer = some .pending) ↔ _
  rw [hlisted, htrust]
  cases fate (C := C) e (whole m) peer with
  | untouched hdeed htrust hlisted =>
    rw [htrust, hlisted]
    exact iff_of_true hold fun habout => absurd habout (about_untouched complete_whole hdeed)
  | named name hdeed hne htrust hlisted =>
    refine iff_of_true (fun hl => ?_) fun _ => ?_
    · have hpending := hold (hlisted.mp hl)
      rw [htrust (by rw [hpending]; nofun), hpending]
    · exact clear_of (d := .named peer name) hdeed rfl
  | added hdeed hne hcomplete htrust hlisted =>
    rw [htrust, hlisted, Clear, show deed C m.1 e m.2 = .added peer from hdeed]
    refine ⟨fun hl _ r hr hin => ?_, fun hclear hin => absurd hin (hclear rfl peer rfl)⟩
    obtain rfl := Option.some.inj hr
    cases hl hin
  | asked hdeed hne htrust hlisted =>
    refine iff_of_true (fun _ => htrust) fun _ => ?_
    exact clear_of (d := .asked peer) hdeed rfl
  | settled accepted hdeed hne htrust hlisted =>
    rw [htrust, hlisted, Clear, show deed C m.1 e m.2 = .settled peer accepted from hdeed]
    refine ⟨fun hl _ r hr hin => ?_, fun hclear hin => absurd hin (hclear rfl peer rfl)⟩
    obtain rfl := Option.some.inj hr
    exact verdict_ne_pending accepted (hl hin)
  | removed accept hdeed hne hcut htrust hlisted => exact absurd complete_whole hcut
  | answered accept hdeed hne hcomplete htrust hlisted =>
    refine iff_of_true (fun hl => absurd hl hlisted) fun _ => ?_
    exact clear_of (d := .answered peer accept) hdeed rfl
  | torn greeting hdeed hne hcut hlisted htrust => exact absurd complete_whole hcut
  | taken greeting hdeed hne hcomplete htrust hlisted =>
    refine iff_of_true (fun _ => htrust) fun _ => ?_
    exact clear_of (d := .requested peer greeting) hdeed rfl

theorem agrees_step (agrees : ∀ peer, Agrees C e peer) (hc : m.2.reopens = false) :
    (∀ peer, Agrees C (engineStep C e m) peer) ↔ Clear C e m := by
  have synced : ∀ peer, toHex peer ∈ e.incomingRequests ↔ Store.Listed e.contacts peer :=
    fun peer => (agrees peer).incoming
  constructor
  · intro after
    cases habout : about (deed C m.1 e m.2) with
    | none =>
      cases hd : deed C m.1 e m.2 with
      | aside | noted _ => exact clear_of hd rfl
      | _ =>
        rw [hd] at habout
        cases habout
    | some peer => exact (pending_step hc (agrees peer).pending).mp (after peer).pending habout
  · intro clear peer
    have hlawful := lawful_whole (C := C) (e := e) hc
    exact agrees_of (synced_turn synced hlawful peer) (single_turn hlawful (agrees peer).single)
      ((pending_step hc (agrees peer).pending).mpr fun _ => clear)

/-- From a new engine, or one that has opened a store, everything agrees as long as nobody is
added, or settled by a response, whose own request waits for an answer, and no longer. -/
theorem requests_agree {localPublic localSecret : Bytes}
    (started : e₀ = .new localPublic localSecret ∨ ∃ io path passphrase,
      e₀ = ((Engine.new localPublic localSecret).openStore C io path passphrase).1)
    (run : Run (engineStep C) (fun _ _ m => m.2.reopens = false) e₀ h e) :
    Run.Throughout (fun _ e => ∀ peer, Agrees C e peer) h e ↔
      Fair e₀.contacts ∧ Run.Each (fun _ m => Clear C m.1 m.2) h := by
  have synced : ∀ peer, toHex peer ∈ e₀.incomingRequests ↔ Store.Listed e₀.contacts peer := by
    intro peer
    obtain rfl | ⟨io, path, passphrase, rfl⟩ := started
    · simp [Engine.new, Store.Listed]
    · exact synced_openStore io localPublic localSecret path passphrase peer
  have hmoves : (∀ peer, Agrees C e₀ peer) →
      (Run.Throughout (fun _ e => ∀ peer, Agrees C e peer) h e ↔
        Run.Each (fun _ m => Clear C m.1 m.2) h) := fun hstart =>
    run.throughout_iff (P := fun _ e => ∀ peer, Agrees C e peer) (Q := fun _ m => Clear C m.1 m.2)
      hstart fun _ _ _ _ agrees hc => agrees_step agrees hc
  constructor
  · intro agrees
    have hstart := agrees.first run
    exact ⟨fun peer => ⟨(hstart peer).single, (hstart peer).pending⟩, (hmoves hstart).mp agrees⟩
  · rintro ⟨fair, clear⟩
    have hstart : ∀ peer, Agrees C e₀ peer := fun peer =>
      agrees_of (synced peer) (fair peer).1 (fair peer).2
    exact (hmoves hstart).mpr clear

def accepting : History Engine (Env × Engine.Call) × Engine :=
  Run.replay (engineStep reference) [] (newEngines .A)
    [(clock, asking), (clock, .acceptContact (twoParties.key .B))]

theorem requests_agree_accepting :
    Run.Throughout (fun _ e => ∀ peer, Agrees reference e peer) accepting.1 accepting.2 := by
  have hasking : Clear reference (newEngines .A) (clock, asking) := by
    have hdeed : deed reference clock (newEngines .A) asking =
        .requested (twoParties.key .B) [66] := by decide +kernel
    exact clear_of hdeed rfl
  have haccepting : Clear reference (engineStep reference (newEngines .A) (clock, asking))
      (clock, .acceptContact (twoParties.key .B)) := by
    have hdeed : deed reference clock (engineStep reference (newEngines .A) (clock, asking))
        (.acceptContact (twoParties.key .B)) = .answered (twoParties.key .B) true := by
      decide +kernel
    exact clear_of hdeed rfl
  have hfair : Fair (newEngines .A).contacts :=
    fun peer => ⟨Nat.zero_le 1, fun ⟨_, hq, _⟩ => nomatch hq⟩
  have hmoves : accepting.1 = [(engineStep reference (newEngines .A) (clock, asking), clock,
      .acceptContact (twoParties.key .B)), (newEngines .A, clock, asking)] := rfl
  have heach : Run.Each (fun _ m => Clear reference m.1 m.2) accepting.1 := by
    simp only [hmoves, Run.Each, haccepting, hasking, and_true]
  exact (requests_agree (Or.inl rfl) (Run.replay_run .start (by decide +kernel))).mpr ⟨hfair, heach⟩

def adding : History Engine (Env × Engine.Call) × Engine :=
  Run.replay (engineStep reference) [] (newEngines .A)
    [(clock, asking), (clock, .addPeer (twoParties.key .B) address)]

theorem accepted_peer_rejected :
    Run (engineStep reference) (fun _ _ m => m.2.reopens = false) (newEngines .A) adding.1 adding.2 ∧
    ¬ (∀ peer, Agrees reference adding.2 peer) ∧
    adding.2.trustOf (twoParties.key .B) = some .accepted ∧
    adding.2.pendingRequests = [⟨twoParties.key .B, [66], 0⟩] ∧
    (adding.2.rejectContact reference clock (twoParties.key .B)).2 = true ∧
    (adding.2.rejectContact reference clock (twoParties.key .B)).1.trustOf (twoParties.key .B) =
      some .rejected := by
  have htrust : adding.2.trustOf (twoParties.key .B) = some .accepted ∧
      adding.2.pendingRequests = [⟨twoParties.key .B, [66], 0⟩] := by decide +kernel
  refine ⟨Run.replay_run .start (by decide +kernel), fun agrees => ?_, htrust.1, htrust.2,
    by decide +kernel, by decide +kernel⟩
  have hpending := (agrees (twoParties.key .B)).pending
    ⟨_, by rw [htrust.2]; exact List.mem_cons_self, rfl⟩
  rw [htrust.1] at hpending
  cases hpending

end OpenMesh.Messaging.Listings
