import OpenMesh.Library.Budgets
import OpenMesh.Messaging.Punching

namespace OpenMesh.Messaging.Probing

open OpenMesh.Core.Buffers OpenMesh.Core.Hex OpenMesh.Crypto.Primitives
open OpenMesh.Crypto.Reference OpenMesh.Library.Runs OpenMesh.Library.Budgets
open OpenMesh.Protocol.Envelope OpenMesh.Net.Transport
open OpenMesh.Messaging.Operations OpenMesh.Messaging.Pairs OpenMesh.Messaging.Routes
open OpenMesh.Messaging.Paths OpenMesh.Messaging.Punching

def hellos (ps : List (Endpoint × Packet)) : ℕ := ps.countP fun p => p.2.type = .hello

/-- The probes that leave in one call. A HELLO that announces the engine is none. -/
def probesSent (C : Sodium) (e : Engine) (m : Env × Engine.Call) : ℕ :=
  match m.2 with
  | .announceTo _ => 0
  | _ => hellos ((engineStep C e m).socket.sent.drop e.socket.sent.length)

/-- One for a call that begins to probe a peer to which no path is confirmed. -/
def starts (e : Engine) (m : Env × Engine.Call) : ℕ :=
  match target m.2 with
  | some r => if e.hasDirectPath r then 0 else 1
  | none => 0

def repeats (p : Probe) : ℕ := if p.confirmed then 0 else kMaxProbes - p.attempts

def confirmations (p : Probe) : ℕ := if p.confirmed then 1 else 0

def reserve (e : Engine) : ℕ := total repeats e.probes

def confirmed (e : Engine) : ℕ := total confirmations e.probes

/-- The probes that are sent on the way are repeats that were left, the reply to a confirmation,
or among `k` new ones. -/
def Costs (k : ℕ) (e e' : Engine) : Prop :=
  ∃ ps, e'.socket.sent = e.socket.sent ++ ps ∧
    hellos ps + reserve e' + confirmed e ≤ reserve e + confirmed e' + k

variable {C : Sodium} {env : Env} {e e' e'' : Engine} {j k : ℕ}

theorem hellos_append (ps qs : List (Endpoint × Packet)) :
    hellos (ps ++ qs) = hellos ps + hellos qs := List.countP_append

theorem Costs.trans (h : Costs j e e') (h' : Costs k e' e'') : Costs (j + k) e e'' := by
  obtain ⟨ps, hps, hle⟩ := h
  obtain ⟨qs, hqs, hle'⟩ := h'
  refine ⟨ps ++ qs, by rw [hqs, hps, List.append_assoc], ?_⟩
  rw [hellos_append]
  omega

theorem costs_quiet (h : Quiet env e e') : Costs 0 e e' := by
  obtain ⟨ps, hps, hall⟩ := h.sent
  have hnone : hellos ps = 0 := by
    apply List.countP_eq_zero.mpr
    intro p hp
    simpa using (hall p hp).2
  refine ⟨ps, hps, ?_⟩
  rw [hnone, reserve, reserve, confirmed, confirmed, h.probes]
  omega

theorem costs_refl (e : Engine) : Costs 0 e e := by
  refine ⟨[], (List.append_nil _).symm, ?_⟩
  rw [hellos, List.countP_nil]
  omega

theorem costs_insert {ps : List (Endpoint × Packet)} {key : Bytes} {p : Probe}
    (hprobes : e'.probes = e.probes.insert key p) (hsent : e'.socket.sent = e.socket.sent ++ ps)
    (h : hellos ps + repeats p + (e.probes.lookup key).elim 0 confirmations ≤
      (e.probes.lookup key).elim 0 repeats + confirmations p + k) : Costs k e e' := by
  have hrepeats := total_insert repeats e.probes key p
  have hconfirmations := total_insert confirmations e.probes key p
  refine ⟨ps, hsent, ?_⟩
  rw [reserve, reserve, confirmed, confirmed, hprobes]
  omega

theorem sendProbe_sent (env : Env) (e : Engine) (peer : Bytes) (dest : Endpoint) :
    ∃ ps, (e.sendProbe env peer dest).socket.sent = e.socket.sent ++ ps ∧ hellos ps ≤ ps.length ∧
      ps.length ≤ 1 := by
  obtain h | h := Engine.sendTo_sent e.socket env.takes dest
    { type := .hello, source := e.localPublic, destination := peer }
  · refine ⟨[], ?_, List.countP_le_length, Nat.zero_le 1⟩
    rw [Engine.sendProbe, Engine.transmit, h, List.append_nil]
  · refine ⟨[(dest, { type := .hello, source := e.localPublic, destination := peer })], ?_,
      List.countP_le_length, le_refl 1⟩
    rw [Engine.sendProbe, Engine.transmit, h]

theorem startProbing_costs (env : Env) (e : Engine) (peer : Bytes) (candidate : Endpoint) :
    Costs (if e.hasDirectPath peer then 0 else kMaxProbes) e
      (e.startProbing env peer candidate) := by
  unfold Engine.startProbing Engine.hasDirectPath
  dsimp only
  cases hp : e.probes.lookup (toHex peer) with
  | none =>
    obtain ⟨ps, hsent, hle, hlen⟩ := sendProbe_sent env { e with
      probes := e.probes.insert (toHex peer) ⟨peer, candidate, false, 1, env.steadyNow⟩ } peer candidate
    refine costs_insert rfl hsent ?_
    simp only [hp, Option.elim_none, repeats, confirmations, kMaxProbes, Bool.false_eq_true,
      ↓reduceIte]
    omega
  | some p =>
    dsimp only
    by_cases hc : p.confirmed = true
    · simp only [hc, ↓reduceIte]
      exact costs_refl e
    · simp only [hc, Bool.false_eq_true, ↓reduceIte]
      obtain ⟨ps, hsent, hle, hlen⟩ := sendProbe_sent env { e with
        probes := e.probes.insert (toHex peer)
          { p with peer, candidate, last := env.steadyNow, attempts := 1 } } peer candidate
      refine costs_insert rfl hsent ?_
      simp only [hp, Option.elim_some, repeats, confirmations, kMaxProbes, hc, Bool.false_eq_true,
        ↓reduceIte]
      omega

theorem tickProbe_costs (e : Engine) (key : Bytes) : Costs 0 e (e.tickProbe env key) := by
  unfold Engine.tickProbe
  cases hp : e.probes.lookup key with
  | none => exact costs_refl e
  | some p =>
    dsimp only
    split_ifs with hstop hdue
    · exact costs_refl e
    · obtain ⟨ps, hsent, hle, hlen⟩ := sendProbe_sent env e p.peer p.candidate
      refine costs_insert rfl hsent ?_
      have hc : ¬ p.confirmed = true := fun hc => hstop (.inl hc)
      have hleft : ¬ kMaxProbes ≤ p.attempts := fun hleft => hstop (.inr hleft)
      simp only [hp, Option.elim_some, repeats, confirmations, hc, Bool.false_eq_true, ↓reduceIte]
      omega
    · exact costs_refl e

theorem tick_costs (e : Engine) : Costs 0 e (e.tick env) :=
  Engine.tick_rel costs_refl .trans tickProbe_costs e

theorem handleProbe_costs (e : Engine) (peer : Bytes) (origin : Endpoint) :
    Costs 0 e (e.handleProbe env peer origin) := by
  unfold Engine.handleProbe
  dsimp only
  cases hp : e.probes.lookup (toHex peer) with
  | none =>
    simp only [Option.getD_none, Bool.false_eq_true, ↓reduceIte]
    obtain ⟨ps, hsent, hle, hlen⟩ := sendProbe_sent env { e with
      probes := e.probes.insert (toHex peer) ⟨peer, ⟨[], 0⟩, true, 0, 0⟩
      endpoints := e.endpoints.insert (toHex peer) origin } peer origin
    refine costs_insert rfl hsent ?_
    simp only [hp, Option.elim_none, repeats, confirmations, ↓reduceIte]
    omega
  | some p =>
    simp only [Option.getD_some]
    by_cases hc : p.confirmed = true
    · rw [if_pos hc]
      refine costs_insert rfl (List.append_nil _).symm ?_
      simp only [hp, Option.elim_some, repeats, confirmations, hc, ↓reduceIte]
      exact le_refl _
    · rw [if_neg hc]
      obtain ⟨ps, hsent, hle, hlen⟩ := sendProbe_sent env { e with
        probes := e.probes.insert (toHex peer) { p with peer, confirmed := true }
        endpoints := e.endpoints.insert (toHex peer) origin } peer origin
      refine costs_insert rfl hsent ?_
      simp only [hp, Option.elim_some, repeats, confirmations, hc, Bool.false_eq_true, ↓reduceIte]
      omega

theorem probesSent_le {m : Env × Engine.Call} {ps : List (Endpoint × Packet)}
    (h : (engineStep C e m).socket.sent = e.socket.sent ++ ps) : probesSent C e m ≤ hellos ps := by
  unfold probesSent
  split
  · exact Nat.zero_le _
  · rw [h, List.drop_left]

theorem Costs.probesSent {m : Env × Engine.Call} (h : Costs k e (engineStep C e m)) :
    probesSent C e m + reserve (engineStep C e m) + confirmed e ≤
      reserve e + confirmed (engineStep C e m) + k := by
  obtain ⟨ps, hps, hle⟩ := h
  have hsent := probesSent_le hps
  omega

/-- Whatever an engine does, its probes are paid for. -/
theorem call_budget (e : Engine) (m : Env × Engine.Call) :
    probesSent C e m + reserve (engineStep C e m) + confirmed e ≤
      reserve e + confirmed (engineStep C e m) + kMaxProbes * starts e m := by
  obtain ⟨env, c⟩ := m
  cases (probing_call e c : Probing env e c (e.call C env c).1) with
  | quiet h =>
    have hbudget := (costs_quiet h).probesSent (m := (env, c))
    omega
  | announced relay hc he =>
    have hprobes : (engineStep C e (env, c)).probes = e.probes := by rw [engineStep, he]; rfl
    have hnone : Probing.probesSent C e (env, c) = 0 := by rw [hc]; rfl
    rw [hnone, reserve, reserve, confirmed, confirmed, hprobes]
    omega
  | started e₁ r candidate hc hq he =>
    have hdirect : e₁.hasDirectPath r = e.hasDirectPath r := by
      rw [Engine.hasDirectPath, Engine.hasDirectPath, hq.probes]
    have hstarts : kMaxProbes * starts e (env, c) =
        0 + if e₁.hasDirectPath r then 0 else kMaxProbes := by
      simp only [starts, hc, hdirect]
      cases e.hasDirectPath r <;> rfl
    have hcosts := (costs_quiet hq).trans (startProbing_costs env e₁ r candidate)
    rw [hstarts]
    apply Costs.probesSent
    rwa [engineStep, he]
  | ticked he =>
    have hcosts : Costs 0 e (engineStep C e (env, c)) := by
      rw [engineStep, he]
      exact tick_costs e
    have hbudget := hcosts.probesSent
    omega
  | probed r origin he =>
    have hcosts : Costs 0 e (engineStep C e (env, c)) := by
      rw [engineStep, he]
      exact handleProbe_costs e r origin
    have hbudget := hcosts.probesSent
    omega

def peersOf (e : Engine) : Finset Bytes :=
  ((e.probes.entries.filter fun x => x.2.confirmed).map fun x => x.2.peer).toFinset

theorem entry_keyed (well : WellKeyed e) {x : Sigma fun _ : Bytes => Probe}
    (hx : x ∈ e.probes.entries) : e.probes.lookup x.1 = some x.2 ∧ toHex x.2.peer = x.1 := by
  have hlookup : e.probes.lookup x.1 = some x.2 := AList.mem_lookup_iff.mpr hx
  exact ⟨hlookup, well x.1 x.2 hlookup⟩

theorem mem_peersOf (well : WellKeyed e) (q : Bytes) :
    q ∈ peersOf e ↔ e.hasDirectPath q = true := by
  rw [hasDirectPath_iff, peersOf, List.mem_toFinset]
  refine ⟨fun h => ?_, ?_⟩
  · obtain ⟨x, hx, rfl⟩ := List.mem_map.mp h
    obtain ⟨hentry, hconfirmed⟩ := List.mem_filter.mp hx
    obtain ⟨hlookup, hkey⟩ := entry_keyed well hentry
    exact ⟨x.2, hkey ▸ hlookup, hconfirmed⟩
  · rintro ⟨p, hlookup, hconfirmed⟩
    refine List.mem_map.mpr ⟨⟨toHex q, p⟩, List.mem_filter.mpr ⟨?_, hconfirmed⟩, ?_⟩
    · exact AList.mem_lookup_iff.mp hlookup
    · exact toHex_inj.mp (well (toHex q) p hlookup)

theorem card_peersOf (well : WellKeyed e) : (peersOf e).card = confirmed e := by
  have hnodup : ((e.probes.entries.filter fun x => x.2.confirmed).map fun x => x.2.peer).Nodup := by
    apply List.Nodup.of_map toHex
    rw [List.map_map]
    have hkeys : (e.probes.entries.filter fun x => x.2.confirmed).map (toHex ∘ fun x => x.2.peer) =
        (e.probes.entries.filter fun x => x.2.confirmed).map Sigma.fst := by
      apply List.map_congr_left
      intro x hx
      exact (entry_keyed well (List.mem_filter.mp hx).1).2
    rw [hkeys]
    exact e.probes.nodupKeys.sublist List.filter_sublist
  rw [peersOf, List.toFinset_card_of_nodup hnodup, List.length_map, ← sum_indicator]
  rfl

section Alone

variable {ok : Past → Engine → Env × Engine.Call → Prop} {e₀ : Engine} {h : Past}

theorem wellKeyed_run (well : WellKeyed e₀) (run : Run (engineStep C) ok e₀ h e) : WellKeyed e := by
  induction run with
  | start => exact well
  | @move h e m _ _ ih =>
    have hne : ([0] : Bytes) ≠ [] := List.cons_ne_nil _ _
    have tidy : Tidy m.1 [0] e (engineStep C e m) := tidy_call hne e m.2
    exact tidy.keyed ih

theorem direct_lasts (run : Run (engineStep C) ok e₀ h e) {q : Bytes} :
    ((∃ m ∈ h, m.1.hasDirectPath q = true) ∨ e.hasDirectPath q = true) ↔
      e.hasDirectPath q = true := by
  refine ⟨?_, Or.inr⟩
  rintro (hpast | hd)
  · induction run with
    | start =>
      obtain ⟨m, hm, -⟩ := hpast
      cases hm
    | @move h e m _ _ ih =>
      obtain ⟨m', hm', hd⟩ := hpast
      apply hasDirectPath_call m.1 m.2
      obtain rfl | hm' := List.mem_cons.mp hm'
      · exact hd
      · exact ih ⟨m', hm', hd⟩
  · exact hd

theorem probes_run {localPublic localSecret : Bytes}
    (run : Run (engineStep C) ok (Engine.new localPublic localSecret) h e) :
    spent (probesSent C) h ≤ kMaxProbes * spent starts h + confirmed e := by
  have hbudget : spent (probesSent C) h + reserve e + confirmed (Engine.new localPublic localSecret)
      ≤ reserve (Engine.new localPublic localSecret) + confirmed e +
        spent (fun e m => kMaxProbes * starts e m) h := run_budget call_budget run
  have hincome : spent (fun e m => kMaxProbes * starts e m) h = kMaxProbes * spent starts h :=
    List.sum_map_mul_left _ _ _
  have hreserve : reserve (Engine.new localPublic localSecret) = 0 := rfl
  have hconfirmed : confirmed (Engine.new localPublic localSecret) = 0 := rfl
  rw [hincome, hreserve, hconfirmed] at hbudget
  omega

end Alone

def exchange (C : Sodium) (w : Party → Engine) (i : Party × Env × Datagram) : Party → Engine :=
  Function.update w i.1 ((w i.1).call C i.2.1 (.poll (some i.2.2))).1

/-- What comes in is a probe of the other engine, no matter whether that has ever sent it, and
how often it has come before. -/
def OnlyProbes (w : Party → Engine) (i : Party × Env × Datagram) : Prop :=
  ∃ packet, deserialize (receive i.2.2).data = some packet ∧ packet.type = .hello ∧
    packet.source = (w i.1.other).localPublic

def direct (e : Engine) (q : Bytes) : ℕ := if e.hasDirectPath q then 1 else 0

theorem handleProbe_answers (e : Engine) (peer : Bytes) (origin : Endpoint) :
    (e.handleProbe env peer origin).socket.sent.length + direct e peer ≤
      e.socket.sent.length + 1 := by
  have hsent : ∀ (e' : Engine) dest, (e'.sendProbe env peer dest).socket.sent.length ≤
      e'.socket.sent.length + 1 := by
    intro e' dest
    obtain ⟨ps, hsent, -, hlen⟩ := sendProbe_sent env e' peer dest
    rw [hsent, List.length_append]
    omega
  unfold Engine.handleProbe direct Engine.hasDirectPath
  dsimp only
  cases e.probes.lookup (toHex peer) with
  | none => exact hsent _ origin
  | some p =>
    simp only [Option.getD_some]
    by_cases hc : p.confirmed = true
    · rw [if_pos hc, if_pos hc]
    · rw [if_neg hc, if_neg hc]
      exact hsent _ origin

theorem poll_answers {d : Datagram} {packet : Packet}
    (hp : deserialize (receive d).data = some packet) (hty : packet.type = .hello) :
    ((e.call C env (.poll (some d))).1.socket.sent.length + direct e packet.source ≤
      e.socket.sent.length + direct (e.call C env (.poll (some d))).1 packet.source) ∧
    (e.call C env (.poll (some d))).1.localPublic = e.localPublic := by
  have hcall : (e.call C env (.poll (some d))).1 =
      if packet.destination = e.localPublic ∧ packet.source ≠ [] then
        e.handleProbe env packet.source d.origin else e := by
    simp only [Engine.call, Engine.poll, Option.map_some, hp, hty, ↓reduceIte]
    rfl
  rw [hcall]
  split
  · have hanswers : (e.handleProbe env packet.source d.origin).socket.sent.length +
        direct e packet.source ≤ e.socket.sent.length + 1 :=
      handleProbe_answers e packet.source d.origin
    have hdirect : direct (e.handleProbe env packet.source d.origin) packet.source = 1 := by
      rw [direct, (handleProbe_frame env e packet.source d.origin).2, if_pos rfl, if_pos rfl]
    refine ⟨by rwa [hdirect], ?_⟩
    unfold Engine.handleProbe
    dsimp only
    split <;> rfl
  · exact ⟨le_refl _, rfl⟩

/-- Each of the two keeps its key, and has sent a packet at most for the path it has found. -/
def Answered (w₀ w : Party → Engine) : Prop := ∀ X, (w X).localPublic = (w₀ X).localPublic ∧
  (w X).socket.sent.length + direct (w₀ X) (w₀ X.other).localPublic ≤
    (w₀ X).socket.sent.length + direct (w X) (w₀ X.other).localPublic

theorem answered_exchange {w₀ w : Party → Engine} {i : Party × Env × Datagram}
    (answered : Answered w₀ w) (hok : OnlyProbes w i) : Answered w₀ (exchange C w i) := by
  obtain ⟨Y, env, d⟩ := i
  obtain ⟨packet, hp, hty, hsource⟩ := hok
  dsimp only at hp hsource
  intro X
  by_cases hX : X = Y
  · subst hX
    obtain ⟨hkey, hle⟩ := answered X
    rw [exchange, Function.update_self]
    dsimp only
    obtain ⟨hsent, hlocal⟩ : _ ∧ ((w X).call C env (.poll (some d))).1.localPublic = _ :=
      poll_answers hp hty
    rw [hsource, (answered X.other).1] at hsent
    exact ⟨hlocal.trans hkey, by omega⟩
  · rw [exchange, Function.update_of_ne hX]
    exact answered X

theorem answered_run {w₀ w : Party → Engine} {h : History (Party → Engine) (Party × Env × Datagram)}
    (run : Run (exchange C) (fun _ => OnlyProbes) w₀ h w) : Answered w₀ w := by
  refine run.invariant (fun _ => Answered w₀) (fun X => ⟨rfl, le_refl _⟩) ?_
  intro h w i _ answered hok
  exact answered_exchange answered hok

/-- In all, an engine sends no more than twelve probes for each time that it begins to probe a
peer without a path, and one for each peer to which there is a path in the end. Two engines that
hear nothing but each other's probes send two packets at most, in whatever order these come
and however often. -/
theorem probes_bounded (C : Sodium) :
    (∀ (localPublic localSecret : Bytes) (h : Past) (e : Engine),
      Run (engineStep C) (fun _ _ _ => True) (Engine.new localPublic localSecret) h e →
        ∃ peers : Finset Bytes,
          (∀ q, q ∈ peers ↔ (∃ m ∈ h, m.1.hasDirectPath q = true) ∨ e.hasDirectPath q = true) ∧
          spent (probesSent C) h ≤ kMaxProbes * spent starts h + peers.card) ∧
    ∀ (w₀ w : Party → Engine) (h : History (Party → Engine) (Party × Env × Datagram)),
      Run (exchange C) (fun _ => OnlyProbes) w₀ h w →
        (w .A).socket.sent.length + (w .B).socket.sent.length ≤
          (w₀ .A).socket.sent.length + (w₀ .B).socket.sent.length + 2 := by
  refine ⟨fun localPublic localSecret h e run => ?_, fun w₀ w h run => ?_⟩
  · have hstart : WellKeyed (Engine.new localPublic localSecret) := by
      intro key p hp
      cases hp
    have well := wellKeyed_run hstart run
    refine ⟨peersOf e, fun q => ?_, ?_⟩
    · rw [mem_peersOf well, direct_lasts run]
    · rw [card_peersOf well]
      exact probes_run run
  · have answered := answered_run run
    have hdirect : ∀ (e : Engine) q, direct e q ≤ 1 := by
      intro e q
      unfold direct
      split <;> decide
    have hA := (answered .A).2
    have hB := (answered .B).2
    have hA' := hdirect (w .A) (w₀ Party.A.other).localPublic
    have hB' := hdirect (w .B) (w₀ Party.B.other).localPublic
    omega

def crossing : List (Party × Env × Datagram) :=
  [(.A, clock, knock .B address), (.B, clock, knock .A address), (.B, clock, knock .A elsewhere),
   (.A, clock, knock .B elsewhere), (.A, clock, knock .B address), (.B, clock, knock .A address)]

def crossed : History (Party → Engine) (Party × Env × Datagram) × (Party → Engine) :=
  Run.replay (exchange reference) [] newEngines crossing

theorem knock_received (X : Party) (origin : Endpoint) :
    deserialize (receive (knock X origin)).data = some
      { type := .hello, source := twoParties.key X, destination := twoParties.key X.other } := by
  have hdata : (receive (knock X origin)).data = (receive (knock X address)).data := rfl
  rw [hdata]
  cases X <;> decide +kernel

theorem probes_bounded_crossed :
    (∃ peers : Finset Bytes,
      (∀ q, q ∈ peers ↔ (∃ m ∈ (alone relayed).1, m.1.hasDirectPath q = true) ∨
        (alone relayed).2.hasDirectPath q = true) ∧
      spent (probesSent reference) (alone relayed).1 ≤
        kMaxProbes * spent starts (alone relayed).1 + peers.card) ∧
    (crossed.2 .A).socket.sent.length + (crossed.2 .B).socket.sent.length ≤
      (newEngines .A).socket.sent.length + (newEngines .B).socket.sent.length + 2 := by
  have hlawful : Run.Lawful (exchange reference) (fun _ => OnlyProbes) [] newEngines crossing := by
    refine ⟨⟨_, knock_received _ _, rfl, ?_⟩, ⟨_, knock_received _ _, rfl, ?_⟩,
      ⟨_, knock_received _ _, rfl, ?_⟩, ⟨_, knock_received _ _, rfl, ?_⟩,
      ⟨_, knock_received _ _, rfl, ?_⟩, ⟨_, knock_received _ _, rfl, ?_⟩, trivial⟩
    all_goals decide +kernel
  exact ⟨(probes_bounded reference).1 _ _ _ _ (alone_run relayed),
    (probes_bounded reference).2 _ _ _ (Run.replay_run .start hlawful)⟩

end OpenMesh.Messaging.Probing
