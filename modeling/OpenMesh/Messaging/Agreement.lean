import OpenMesh.Messaging.Handshake
import OpenMesh.Messaging.Integrity
import OpenMesh.Messaging.Routes

namespace OpenMesh.Messaging.Agreement

open OpenMesh.Core.Buffers OpenMesh.Core.Hex OpenMesh.Crypto.Primitives
open OpenMesh.Crypto.Reference OpenMesh.Library.Runs
open OpenMesh.Protocol.Envelope OpenMesh.Protocol.EnvelopeCodec OpenMesh.Net.Transport
open OpenMesh.Storage.Database
open OpenMesh.Messaging.Operations OpenMesh.Messaging.Sides OpenMesh.Messaging.Projection
open OpenMesh.Messaging.Handling OpenMesh.Messaging.Simulation OpenMesh.Messaging.Pairs
open OpenMesh.Messaging.Integrity OpenMesh.Messaging.Routes OpenMesh.Messaging.Handshake

def Yes (s : Side) (l : Letter) : Prop := l ∈ answers s ∧ saysYes l.text

theorem yes_grow {s : Side} {a : Act} {l : Letter} (h : Yes s l) : Yes (s.act a) l :=
  ⟨answers_grow s h.1, h.2⟩

theorem yes_act {s : Side} {a : Act} {l : Letter} (h : Yes (s.act a) l) :
    Yes s l ∨ a = .answer true true ∧ l.counter = s.counter ∧ s.act a = s.act (.answer true true) := by
  obtain ⟨hl, hy⟩ := h
  rw [answers_act] at hl
  obtain hl | hl := List.mem_append.mp hl
  · exact .inl ⟨hl, hy⟩
  · cases a with
    | answer accept leaves =>
      cases leaves with
      | true =>
        obtain rfl := List.mem_singleton.mp hl
        cases accept with
        | true => exact .inr ⟨rfl, rfl, rfl⟩
        | false => simp at hy
      | false => cases hl
    | _ => cases hl

theorem keeps_accepted {p : Pair} {X : Party} {a : Act} (orderly : Orderly p)
    (permits : p.Permits (X, a)) (h : (p X).trust = some .accepted)
    (hyes : ∃ l, Yes (p X) l ∨ Yes (p X.other) l) : ((p X).act a).trust = some .accepted := by
  have hallow : (p X).Allows a := permits.allowed
  obtain h | ⟨leaves, rfl⟩ | ⟨l', rfl, hty, -, hno⟩ := accepted_act (p X) hallow h
  · exact h
  · obtain ⟨l, hl | hl⟩ := hyes
    · rw [Yes, orderly.fresh X hallow] at hl
      exact absurd hl.1 List.not_mem_nil
    · exact absurd (.inr (List.ne_nil_of_mem hl.1)) (orderly.oneway X (.inl hallow))
  · have hl' : l' ∈ answers (p X.other) := mem_answers.mpr ⟨permits.posted l' rfl, hty⟩
    obtain ⟨l, hl | hl⟩ := hyes
    · exact absurd (.inr (List.ne_nil_of_mem hl')) (orderly.oneway X (.inr (List.ne_nil_of_mem hl.1)))
    · rw [orderly.unique hl' hl.1, hl.2] at hno
      cases hno

def Bound (p : Pair) : Prop := ∀ X l, Yes (p X) l → (p X).trust = some .accepted

theorem bound_step {p : Pair} {m : Party × Act} (orderly : Orderly p) (permits : p.Permits m)
    (bound : Bound p) : Bound (p.step m) := by
  obtain ⟨X, a⟩ := m
  intro Z l hl
  obtain rfl | rfl := X.eq_or_other Z
  · rw [Pair.step_self] at hl ⊢
    obtain hold | ⟨rfl, -, -⟩ := yes_act hl
    · exact keeps_accepted orderly permits (bound Z l hold) ⟨l, .inl hold⟩
    · rfl
  · rw [Pair.step_other] at hl ⊢
    exact bound _ l hl

/-- What ties the two sides together while nobody adds the other by hand. -/
structure Tied (h : History Pair (Party × Act)) (p : Pair) : Prop where
  orderly : Orderly p
  bound : Bound p
  marked : ∀ X, ∀ c ∈ (p X).mark, c < (p X.other).counter
  waiting : ∀ X, requests (p X) ≠ [] → answers (p X.other) = [] → (p X).outgoing
  last : ∀ X l, Yes (p X) l → ∀ l' ∈ (p X).letters, l'.type ≠ .message → l' ≠ l →
    l'.counter < l.counter
  pending : ∀ X l, Yes (p X.other) l → (p X).trust = some .accepted ∨
    (p X).outgoing ∧ ∀ c ∈ (p X).mark, c < l.counter
  why : ∀ X, (p X).trust = some .accepted → ∃ l, Yes (p X) l ∨ Yes (p X.other) l
  done : ∀ X q l, (q, (X, .deliver l)) ∈ h → l.type = .contactResponse → saysYes l.text →
    Yes (p X.other) l ∧ (p X).trust = some .accepted

/-- Every datagram leaves and nobody is added by hand. -/
structure Plain (p : Pair) (m : Party × Act) : Prop where
  permits : p.Permits m
  added : m.2 ≠ .add
  answers : ∀ accept leaves, m.2 = .answer accept leaves → leaves = true
  counter : (p m.1).counter ≤ ((p m.1).act m.2).counter

theorem pending_receive {h : History Pair (Party × Act)} {p : Pair} {X : Party} {a : Act}
    (tied : Tied h p) (permits : p.Permits (X, a)) {l : Letter} (hl : Yes (p X.other) l) :
    (a = .deliver l → ((p X).act a).trust = some .accepted) ∧
      (((p X).act a).trust = some .accepted ∨
        ((p X).act a).outgoing ∧ ∀ c ∈ ((p X).act a).mark, c < l.counter) := by
  by_cases ht : (p X).trust = some .accepted
  · have hk := keeps_accepted tied.orderly permits ht ⟨l, .inr hl⟩
    exact ⟨fun _ => hk, .inl hk⟩
  obtain ⟨hout, hfresh⟩ := (tied.pending X l hl).resolve_left ht
  have hdeliver : a = .deliver l → ((p X).act a).trust = some .accepted := by
    rintro rfl
    have hty := (mem_answers.mp hl.1).2
    have htakes : (p X).Takes l := ⟨fun hm => by simp [hty] at hm, hfresh⟩
    obtain ⟨hn, -⟩ | ⟨-, -, -, -, -, -, hno⟩ | ⟨-, hq, -⟩ | ⟨-, -, -, htrust, -⟩ :=
        Handshake.delivery (p X) l
    · exact absurd htakes hn
    · simp [hno hty] at hout
    · simp [hty] at hq
    · rw [htrust, hl.2]
      rfl
  refine ⟨hdeliver, ?_⟩
  by_cases ha : a = .deliver l
  · exact .inl (hdeliver ha)
  right
  constructor
  · obtain h | ⟨l', rfl, hty⟩ := outgoing_act (p X) (a := a) hout
    · exact h
    · have hl' : l' ∈ answers (p X.other) := mem_answers.mpr ⟨permits.posted l' rfl, hty⟩
      rw [tied.orderly.unique hl' hl.1] at ha
      exact absurd rfl ha
  · intro c hc
    obtain hc | ⟨l', rfl, htakes, rfl⟩ := mark_act (p X) hc
    · exact hfresh c hc
    · refine tied.last X.other l hl l' (permits.posted l' rfl) (fun hm => ht (htakes.1 hm)) ?_
      rintro rfl
      exact ha rfl

theorem tied_start {p : Pair} (h : Strangers p) : Tied [] p := by
  have hno : ∀ X l, ¬ Yes (p X) l := fun X l hl => by
    have := hl.1
    simp [answers, (h.starting X).letters] at this
  refine ⟨orderly_start h, fun X l hl => absurd hl (hno X l), fun X c hc => ?_, fun X hr => ?_,
    fun X l hl => absurd hl (hno X l), fun X l hl => absurd hl (hno X.other l), fun X ht => ?_,
    fun X q l hq => absurd hq List.not_mem_nil⟩
  · simp [(h.starting X).mark] at hc
  · simp [requests, (h.starting X).letters] at hr
  · simp [h.trust X] at ht

section Step

variable {p₀ p : Pair} {h : History Pair (Party × Act)} {X : Party} {a : Act}

theorem marked_step (tied : Tied h p) (ledgers : ∀ X, Ledger X p₀ h p) (plain : Plain p (X, a))
    (Z : Party) : ∀ c ∈ (p.step (X, a) Z).mark, c < (p.step (X, a) Z.other).counter := by
  intro c hc
  obtain rfl | rfl := X.eq_or_other Z
  · rw [Pair.step_self] at hc
    rw [Pair.step_other]
    obtain hc | ⟨l, rfl, -, rfl⟩ := mark_act (p Z) hc
    · exact tied.marked Z c hc
    · exact (ledgers Z.other).below l (plain.permits.posted l rfl)
  · rw [Pair.step_other] at hc
    rw [Party.other_other, Pair.step_self]
    have hlt := tied.marked _ c hc
    rw [Party.other_other] at hlt
    exact UInt64.lt_of_lt_of_le hlt plain.counter

theorem waiting_step (tied : Tied h p) (plain : Plain p (X, a)) (Z : Party)
    (hr : requests (p.step (X, a) Z) ≠ []) (hn : answers (p.step (X, a) Z.other) = []) :
    (p.step (X, a) Z).outgoing := by
  obtain rfl | rfl := X.eq_or_other Z
  · rw [Pair.step_self] at hr ⊢
    rw [Pair.step_other] at hn
    rw [requests_act] at hr
    cases a with
    | ask => rfl
    | _ =>
      obtain ho | ⟨l, he, hty⟩ := outgoing_act (p Z) (tied.waiting Z (by simpa using hr) hn)
      · exact ho
      · have hl := mem_answers.mpr ⟨plain.permits.posted l he, hty⟩
        simp [hn] at hl
  · rw [Pair.step_other] at hr ⊢
    rw [Party.other_other, Pair.step_self, answers_act] at hn
    refine tied.waiting _ hr ?_
    rw [Party.other_other]
    exact (List.append_eq_nil_iff.mp hn).1

theorem posted_after_yes {Z : Party} {l l' : Letter} (orderly : Orderly p) (bound : Bound p)
    (hallow : (p Z).Allows a) (hl : Yes (p Z) l) (hl' : l' ∈ a.posted (p Z).counter) :
    l'.type = .message := by
  cases a with
  | ask => exact absurd (bound Z l hl) hallow
  | answer =>
    have hnil := orderly.fresh Z hallow
    have hmem := hl.1
    rw [hnil] at hmem
    cases hmem
  | tell text leaves =>
    cases leaves with
    | true =>
      obtain rfl := List.mem_singleton.mp hl'
      rfl
    | false => cases hl'
  | _ => cases hl'

theorem last_step (tied : Tied h p) (ledgers : ∀ X, Ledger X p₀ h p) (plain : Plain p (X, a))
    (Z : Party) {l l' : Letter} (hl : Yes (p.step (X, a) Z) l)
    (hl' : l' ∈ (p.step (X, a) Z).letters) (hty : l'.type ≠ .message) (hne : l' ≠ l) :
    l'.counter < l.counter := by
  have hallow : (p X).Allows a := plain.permits.allowed
  obtain rfl | rfl := X.eq_or_other Z
  · rw [Pair.step_self] at hl hl'
    rw [Side.act_letters] at hl'
    obtain hold | ⟨rfl, hc, -⟩ := yes_act hl
    · obtain hl' | hl' := List.mem_append.mp hl'
      · exact tied.last Z l hold l' hl' hty hne
      · exact absurd (posted_after_yes tied.orderly tied.bound hallow hold hl') hty
    · obtain hl' | hl' := List.mem_append.mp hl'
      · rw [hc]
        exact (ledgers Z).below l' hl'
      · have hlm := (mem_answers.mp hl.1).1
        rw [Side.act_letters] at hlm
        obtain hold | hnew := List.mem_append.mp hlm
        · have hlt := (ledgers Z).below l hold
          rw [hc] at hlt
          exact absurd hlt (UInt64.lt_irrefl _)
        · rw [List.mem_singleton.mp hl', List.mem_singleton.mp hnew] at hne
          exact absurd rfl hne
  · rw [Pair.step_other] at hl hl'
    exact tied.last _ l hl l' hl' hty hne

theorem pending_step (tied : Tied h p) (plain : Plain p (X, a)) (Z : Party) {l : Letter}
    (hl : Yes (p.step (X, a) Z.other) l) : (p.step (X, a) Z).trust = some .accepted ∨
      (p.step (X, a) Z).outgoing ∧ ∀ c ∈ (p.step (X, a) Z).mark, c < l.counter := by
  have hallow : (p X).Allows a := plain.permits.allowed
  obtain rfl | rfl := X.eq_or_other Z
  · rw [Pair.step_other] at hl
    rw [Pair.step_self]
    exact (pending_receive tied plain.permits hl).2
  · rw [Party.other_other, Pair.step_self] at hl
    rw [Pair.step_other]
    obtain hold | ⟨rfl, hc, -⟩ := yes_act hl
    · refine tied.pending _ l ?_
      rwa [Party.other_other]
    · right
      have hasked := (tied.orderly.asked X (.inl hallow)).1
      have hnil := tied.orderly.fresh X hallow
      refine ⟨tied.waiting _ hasked (by rwa [Party.other_other]), fun c hcm => ?_⟩
      have hlt := tied.marked _ c hcm
      rw [Party.other_other] at hlt
      rwa [hc]

/-- Nobody accepts without a yes of one of the two. -/
theorem why_step (tied : Tied h p) (plain : Plain p (X, a)) (Z : Party)
    (ht : (p.step (X, a) Z).trust = some .accepted) :
    ∃ l, Yes (p.step (X, a) Z) l ∨ Yes (p.step (X, a) Z.other) l := by
  obtain rfl | rfl := X.eq_or_other Z
  · rw [Pair.step_self] at ht
    rw [Pair.step_self, Pair.step_other]
    obtain ht | rfl | ⟨leaves, rfl⟩ | ⟨l, rfl, -, hty, -, hy⟩ := accepts_act (p Z) ht
    · obtain ⟨l, hl⟩ := tied.why Z ht
      exact ⟨l, hl.imp yes_grow id⟩
    · exact absurd rfl plain.added
    · obtain rfl := plain.answers true leaves rfl
      refine ⟨⟨.contactResponse, (p Z).counter, decision true⟩, .inl ⟨?_, saysYes_decision true⟩⟩
      simp [answers_act]
    · exact ⟨l, .inr ⟨mem_answers.mpr ⟨plain.permits.posted l rfl, hty⟩, hy⟩⟩
  · rw [Pair.step_other] at ht
    rw [Pair.step_other, Party.other_other, Pair.step_self]
    obtain ⟨l, hl⟩ := tied.why _ ht
    rw [Party.other_other] at hl
    exact ⟨l, hl.imp id yes_grow⟩

theorem done_step (tied : Tied h p) (plain : Plain p (X, a)) (Z : Party) {q : Pair} {l : Letter}
    (hq : (q, (Z, .deliver l)) ∈ (p, (X, a)) :: h) (hty : l.type = .contactResponse)
    (hy : saysYes l.text) :
    Yes (p.step (X, a) Z.other) l ∧ (p.step (X, a) Z).trust = some .accepted := by
  have permits := plain.permits
  obtain rfl | rfl := X.eq_or_other Z
  · rw [Pair.step_self, Pair.step_other]
    obtain heq | hq := List.mem_cons.mp hq
    · simp only [Prod.mk.injEq, true_and] at heq
      obtain ⟨rfl, rfl⟩ := heq
      have hl : Yes (q Z.other) l := ⟨mem_answers.mpr ⟨permits.posted l rfl, hty⟩, hy⟩
      exact ⟨hl, (pending_receive tied permits hl).1 rfl⟩
    · obtain ⟨hl, ht⟩ := tied.done Z q l hq hty hy
      exact ⟨hl, keeps_accepted tied.orderly permits ht ⟨l, .inr hl⟩⟩
  · rw [Pair.step_other, Party.other_other, Pair.step_self]
    have hq' : (q, (X.other, .deliver l)) ∈ h := by
      obtain heq | hq := List.mem_cons.mp hq
      · simp only [Prod.mk.injEq] at heq
        exact absurd heq.2.1 X.other_ne
      · exact hq
    obtain ⟨hl, ht⟩ := tied.done _ q l hq' hty hy
    rw [Party.other_other] at hl
    exact ⟨yes_grow hl, ht⟩

theorem tied_step (tied : Tied h p) (ledgers : ∀ X, Ledger X p₀ h p) (plain : Plain p (X, a)) :
    Tied ((p, (X, a)) :: h) (p.step (X, a)) where
  orderly := orderly_step tied.orderly plain.permits
  bound := bound_step tied.orderly plain.permits tied.bound
  marked := marked_step tied ledgers plain
  waiting Z := waiting_step tied plain Z
  last Z _ hl _ := last_step tied ledgers plain Z hl
  pending Z _ := pending_step tied plain Z
  why Z := why_step tied plain Z
  done Z _ _ := done_step tied plain Z

end Step

def Offhand (m : Party × Act) : Prop :=
  m.2 ≠ .add ∧ ∀ accept leaves, m.2 = .answer accept leaves → leaves = true

section Abstract

variable {p₀ p : Pair} {h : History Pair (Party × Act)}

theorem bound_run (hstart : Strangers p₀)
    (run : Run Pair.step (fun _ p m => p.Permits m ∧ Offhand m) p₀ h p) :
    Orderly p ∧ Bound p := by
  refine run.invariant (fun _ p => Orderly p ∧ Bound p) ⟨orderly_start hstart, ?_⟩ ?_
  · intro X l hl
    have := hl.1
    simp [answers, (hstart.starting X).letters] at this
  · rintro h p m - ⟨orderly, bound⟩ hok
    exact ⟨orderly_step orderly hok.1, bound_step orderly hok.1 bound⟩

theorem tied_run (hstart : Strangers p₀) (run : Run Pair.step (fun _ p m => Plain p m) p₀ h p) :
    Tied h p := by
  refine run.invariant _ (tied_start hstart) fun h p m before tied plain => ?_
  have ledgers : ∀ X, Ledger X p₀ h p := fun X =>
    ledger_run hstart.starting (before.mono fun _ _ _ hp => ⟨hp.permits, hp.counter⟩)
  exact tied_step tied ledgers plain

theorem yes_cause (hstart : Strangers p₀)
    (run : Run Pair.step (fun _ p m => p.Permits m ∧ Offhand m) p₀ h p) {X : Party} {l : Letter}
    (hl : Yes (p X) l) :
    ∃ newer q older, h = newer ++ (q, (X, .answer true true)) :: older := by
  refine run.invariant (fun h p => Yes (p X) l →
    ∃ newer q older, h = newer ++ (q, (X, .answer true true)) :: older) ?_ ?_ hl
  · intro hl
    have := hl.1
    simp [answers, (hstart.starting X).letters] at this
  · intro h q m _ ih _ hl
    obtain ⟨Y, a⟩ := m
    have hcons : Yes (q X) l → ∃ newer r older,
        (q, (Y, a)) :: h = newer ++ (r, (X, .answer true true)) :: older := by
      intro hold
      obtain ⟨newer, r, older, rfl⟩ := ih hold
      exact ⟨(q, (Y, a)) :: newer, r, older, rfl⟩
    obtain rfl | rfl := X.eq_or_other Y
    · rw [Pair.step_self] at hl
      obtain hold | ⟨rfl, -, -⟩ := yes_act hl
      · exact hcons hold
      · exact ⟨[], q, h, rfl⟩
    · have hsame : q.step (X.other, a) X = q X := by simpa using q.step_other X.other a
      rw [hsame] at hl
      exact hcons hl

theorem said_yes {ok : History Pair (Party × Act) → Pair → Party × Act → Prop} {X : Party}
    {newer older : History Pair (Party × Act)} {q : Pair}
    (run : Run Pair.step ok p₀ (newer ++ (q, (X, .answer true true)) :: older) p) :
    ∃ l, Yes (p X) l := by
  refine Pair.kept (P := fun s => ∃ l, Yes s l) (fun s a ⟨l, hl⟩ => ⟨l, yes_grow hl⟩) run ?_
  refine ⟨⟨.contactResponse, (q X).counter, decision true⟩, ?_, saysYes_decision true⟩
  rw [Pair.step_self, answers_act]
  simp

theorem accept_bound (hstart : Strangers p₀) {X : Party} {newer older : History Pair (Party × Act)}
    {q : Pair} (run : Run Pair.step (fun _ p m => p.Permits m ∧ Offhand m) p₀
      (newer ++ (q, (X, .answer true true)) :: older) p) : (p X).trust = some .accepted := by
  obtain ⟨l, hl⟩ := said_yes run
  exact (bound_run hstart run).2 X l hl

theorem answers_short (hstart : Strangers p₀)
    (run : Run Pair.step (fun _ p m => p.Permits m ∧ Offhand m) p₀ h p) (X : Party) :
    ∀ l ∈ answers (p X), l.text.length ≤ kLongestText := by
  refine run.invariant (fun _ p => ∀ l ∈ answers (p X), l.text.length ≤ kLongestText) ?_ ?_
  · simp [answers, (hstart.starting X).letters]
  · intro _ q m _ ih _
    obtain ⟨Y, a⟩ := m
    obtain rfl | rfl := X.eq_or_other Y
    · rw [Pair.step_self, answers_act]
      intro l hl
      obtain hl | hl := List.mem_append.mp hl
      · exact ih l hl
      · split at hl
        · obtain rfl := List.mem_singleton.mp hl
          simp [decision, kLongestText]
        · cases hl
    · have hsame : q.step (X.other, a) X = q X := by simpa using q.step_other X.other a
      rwa [hsame]

end Abstract

variable {C : Sodium} (K : Keyring C)

def NoRecord (es : Engines) : Prop :=
  ∀ X, (es X).trustOf (K.key X.other) = none ∧
    ∀ q ∈ (es X).contacts.requests, q.peer ≠ K.key X.other

def NotAdding (m : Move) : Prop := m.2.2.adds ≠ some (K.key m.1.other)

instance (m : Move) : Decidable (NotAdding K m) := inferInstanceAs (Decidable (_ ≠ _))

variable {K} {es₀ es : Engines} {h : History Engines Move}
variable {ok : History Engines Move → Engines → Move → Prop}

theorem strangers_view (hstart : ∀ X, Started C (K.identity X) (es₀ X)) (hnew : NoRecord K es₀) :
    Strangers (view K es₀) where
  starting X := side_started (hstart X) _
  trust X := (hnew X).1
  listed X := by
    change (es₀ X).contacts.requests.any _ = false
    simpa using (hnew X).2

theorem connected_run (hstart : ∀ X, Started C (K.identity X) (es₀ X)) (hnew : NoRecord K es₀)
    (hok : ∀ h es m, ok h es m → Keeping m) (run : Run (Engines.step C) ok es₀ h es) (X : Party) :
    Reached (es X) ∧ (toHex (K.key X.other) ∈ (es X).incomingRequests →
      (endpointOf (es X) (K.key X.other)).isSome) := by
  refine run.invariant (fun _ es => Reached (es X) ∧
    (toHex (K.key X.other) ∈ (es X).incomingRequests →
      (endpointOf (es X) (K.key X.other)).isSome)) ?_ ?_
  · obtain ⟨contacts, he⟩ := started_eq (hstart X)
    have hnone := (hnew X).2
    rw [he] at hnone ⊢
    refine ⟨fun key ⟨p, hp, _⟩ => by simp [Engine.new] at hp, fun hin => ?_⟩
    simp only [List.mem_toFinset, List.mem_map, toHex_inj] at hin
    obtain ⟨q, hq, hpeer⟩ := hin
    exact absurd hpeer (hnone q hq)
  · intro h es m _ ⟨reached, hin⟩ hm
    by_cases hX : X = m.1
    · subst hX
      rw [Engines.step, Function.update_self]
      have hrouted := routed_call (C := C) reached m.2.1 m.2.2 (hok h es m hm)
      refine ⟨reached.call m.2.1 m.2.2 (hok h es m hm), fun hi => ?_⟩
      obtain hi | hi := hrouted.incoming _ hi
      · exact hrouted.kept _ (hin hi)
      · exact hi
    · rw [Engines.step, Function.update_of_ne hX]
      exact ⟨reached, hin⟩

theorem offhand_view (hstart : ∀ X, Started C (K.identity X) (es₀ X)) (hnew : NoRecord K es₀)
    (hok : ∀ h es m, ok h es m → Keeping m ∧ NotAdding K m ∧ Taken m)
    (run : Run (Engines.step C) ok es₀ h es) {m : Move} (hm : ok h es m) :
    Offhand (m.view K es) := by
  obtain ⟨-, hadd, htaken⟩ := hok h es m hm
  constructor
  · intro ha
    have hb := act_call (C := C) m.2.1 (es m.1) (K.key m.1.other) m.2.2
    rw [show act C m.2.1 (es m.1) (K.key m.1.other) m.2.2 = .add from ha] at hb
    obtain ⟨⟨endpoint, he⟩, -⟩ := hb
    exact hadd (by rw [he]; rfl)
  · intro accept leaves ha
    exact answer_leaves ha (connected_run hstart hnew (fun h es m hm => (hok h es m hm).1) run m.1).2
      htaken

theorem handshake_run (hstart : ∀ X, Started C (K.identity X) (es₀ X)) (hnew : NoRecord K es₀)
    (hok : ∀ h es m, ok h es m → Keeping m ∧ Genuine K es m ∧ NotAdding K m ∧ Taken m)
    (run : Run (Engines.step C) ok es₀ h es) :
    Run Pair.step (fun _ p m => p.Permits m ∧ Offhand m) (view K es₀) (views K h) (view K es) :=
  run_view _ hstart (fun h es m hm => ⟨(hok h es m hm).1, (hok h es m hm).2.1⟩)
    (fun _ _ _ before hm => offhand_view hstart hnew
      (fun h es m hm => ⟨(hok h es m hm).1, (hok h es m hm).2.2⟩) before hm) run

theorem views_split {newer' older' : History Pair (Party × Act)} {m' : Pair × (Party × Act)}
    (hv : views K h = newer' ++ m' :: older') :
    ∃ newer fs m older, h = newer ++ (fs, m) :: older ∧ (view K fs, m.view K fs) = m' := by
  obtain ⟨newer, rest, rfl, -, hrest⟩ := List.map_eq_append_iff.mp hv
  obtain ⟨⟨fs, m⟩, older, rfl, hm, -⟩ := List.map_eq_cons_iff.mp hrest
  exact ⟨newer, fs, m, older, rfl, hm⟩

theorem accepted_since (hstart : ∀ X, Started C (K.identity X) (es₀ X)) (hnew : NoRecord K es₀)
    (hok : ∀ h es m, ok h es m → Keeping m ∧ Genuine K es m ∧ NotAdding K m ∧ Taken m)
    {newer older : History Engines Move} {gs : Engines} {m : Move} {Y : Party}
    (hm : m.view K gs = (Y, .answer true true))
    (run : Run (Engines.step C) ok es₀ (newer ++ (gs, m) :: older) es) :
    (es Y).trustOf (K.key Y.other) = some .accepted := by
  have hrun := handshake_run hstart hnew hok run
  have hviews : views K (newer ++ (gs, m) :: older) =
      views K newer ++ (view K gs, (Y, .answer true true)) :: views K older := by
    simp [views, hm]
  rw [hviews] at hrun
  exact accept_bound (strangers_view hstart hnew) hrun

theorem brings_delivers (hstart : ∀ X, Started C (K.identity X) (es₀ X))
    (run : Run (Engines.step C) ok es₀ h es) {X : Party} {p : Endpoint × Packet} {l : Letter}
    (hp : p ∈ (es X.other).socket.sent) (hd : p.2.destination = K.key X)
    (hlet : letterOf C K.common p.2 = some l) (hshort : l.text.length ≤ kLongestText)
    (hbrought : ∃ m ∈ h, Brings m.2 X p.2) : ∃ q, (q, (X, .deliver l)) ∈ views K h := by
  obtain ⟨⟨fs, Y, env, c⟩, hmem, hY, d, hd', hdata⟩ := hbrought
  obtain rfl : Y = X := hY
  obtain ⟨incoming, rfl⟩ : ∃ incoming, c = .poll incoming := by
    cases c with
    | poll incoming => exact ⟨incoming, rfl⟩
    | _ => cases hd'
  obtain rfl : incoming = some d := hd'
  obtain ⟨newer, older, rfl⟩ := List.mem_iff_append.mp hmem
  have hb : brought C (fs Y) (K.key Y.other) (some d) = some l :=
    brought_serialize (ready_run hstart run) (ready_run hstart run.cut.1) hp hd hlet hshort hdata
  refine ⟨view K fs, List.mem_map.mpr ⟨_, hmem, ?_⟩⟩
  simp only [Move.view, act, Projection.delivery, hb]

/-- Where everything arrives, a yes reaches the one who asked. -/
theorem yes_arrives (hstart : ∀ X, Started C (K.identity X) (es₀ X))
    (hshort : ∀ X, ∀ l ∈ answers (view K es X), l.text.length ≤ kLongestText)
    (run : Run (Engines.step C) ok es₀ h es) (harrived : Arrived K h es) {X : Party} {l : Letter}
    (hl : l ∈ answers (view K es X.other)) : ∃ q, (q, (X, .deliver l)) ∈ views K h := by
  obtain ⟨p, hp, hd, hlet⟩ := (mem_letters (ready_run hstart run)).mp (mem_answers.mp hl).1
  have hbrought := harrived X.other p hp hd
  rw [Party.other_other] at hd hbrought
  exact brings_delivers hstart run hp hd hlet (hshort _ l hl) hbrought

theorem tied_view (hstart : ∀ X, Started C (K.identity X) (es₀ X)) (hnew : NoRecord K es₀)
    (run : Run (Engines.step C)
      (fun _ es m => Keeping m ∧ Genuine K es m ∧ NotAdding K m ∧ Taken m) es₀ h es)
    (hcounters : ∀ m ∈ h, Unwrapped K m.1 m.2) : Tied (views K h) (view K es) := by
  have hrun := run.restrict (P := fun es m => Unwrapped K es m) hcounters
  refine tied_run (strangers_view hstart hnew) ((run_view (fun _ p m =>
    Offhand m ∧ (p m.1).counter ≤ ((p m.1).act m.2).counter) hstart
    (fun _ _ _ hm => ⟨hm.1.1, hm.1.2.1⟩) ?_ hrun).mono ?_)
  · intro _ _ _ before hm
    exact ⟨offhand_view hstart hnew (fun _ _ _ hm => ⟨hm.1.1, hm.1.2.2⟩) before hm,
      hm.2.counter (ready_run hstart before) hm.1.1⟩
  · rintro _ _ _ ⟨hperm, hoff, hcount⟩
    exact ⟨hperm, hoff.1, hoff.2, hcount⟩

/-- A party that comes to accept the other through a datagram does so after a
successful `accept_contact` there, and from that call on the other has it as an
accepted contact. Where nothing is lost and nothing is under way, each accepts
the other or neither does. -/
theorem handshake_agreement (hstart : ∀ X, Started C (K.identity X) (es₀ X))
    (hnew : NoRecord K es₀)
    (run : Run (Engines.step C)
      (fun _ es m => Keeping m ∧ Genuine K es m ∧ NotAdding K m ∧ Taken m) es₀ h es) :
    (∀ X newer fs env incoming older, h = newer ++ (fs, (X, env, .poll incoming)) :: older →
      (fs X).trustOf (K.key X.other) ≠ some .accepted →
      (fs.step C (X, env, .poll incoming) X).trustOf (K.key X.other) = some .accepted →
      ∃ mid gs env' rest,
        older = mid ++ (gs, (X.other, env', .acceptContact (K.key X))) :: rest ∧
        toHex (K.key X) ∈ (gs X.other).incomingRequests ∧
        (es X.other).trustOf (K.key X) = some .accepted ∧
        ∀ m ∈ newer ++ (fs, (X, env, .poll incoming)) :: mid,
          (m.1 X.other).trustOf (K.key X) = some .accepted) ∧
    ((∀ m ∈ h, Unwrapped K m.1 m.2) → Arrived K h es →
      ((es .A).trustOf (K.key .B) = some .accepted ↔
        (es .B).trustOf (K.key .A) = some .accepted)) := by
  have hstrangers := strangers_view (K := K) hstart hnew
  have hok : ∀ (_ : History Engines Move) es m,
      Keeping m ∧ Genuine K es m ∧ NotAdding K m ∧ Taken m →
      Keeping m ∧ Genuine K es m ∧ NotAdding K m ∧ Taken m := fun _ _ _ h => h
  constructor
  · rintro X newer fs env incoming older rfl hbefore hafter
    obtain ⟨hrun, hm⟩ := run.cut
    have hold := handshake_run hstart hnew hok hrun
    have ready := ready_run (K := K) hstart hrun
    have hposted := (permits_view ready hm.2.1).posted
    have hstep : view K (fs.step C (X, env, .poll incoming)) X =
        (view K fs X).act (Projection.delivery C (fs X) (K.key X.other) incoming) := by
      rw [view_step ready hm.1]
      exact Pair.step_self ..
    have htrust : ((view K fs X).act
        (Projection.delivery C (fs X) (K.key X.other) incoming)).trust = some .accepted := by
      rw [← hstep]
      exact hafter
    obtain ⟨l, hl⟩ : ∃ l, Yes (view K fs X.other) l := by
      obtain h | h | ⟨_, h⟩ | ⟨l, h, -, hty, -, hy⟩ := accepts_act _ htrust
      · exact absurd h hbefore
      · unfold Projection.delivery at h
        split at h <;> cases h
      · unfold Projection.delivery at h
        split at h <;> cases h
      · exact ⟨l, mem_answers.mpr ⟨hposted l h, hty⟩, hy⟩
    obtain ⟨mid', q, rest', hviews⟩ := yes_cause hstrangers hold hl
    obtain ⟨mid, gs, ⟨Y, env', c⟩, rest, rfl, hgs⟩ := views_split hviews
    have hY : Y = X.other := congrArg (fun m => m.2.1) hgs
    subst hY
    have hanswer : act C env' (gs X.other) (K.key X.other.other) c = .answer true true :=
      congrArg (fun m => m.2.2) hgs
    have hbehind := act_call (C := C) env' (gs X.other) (K.key X.other.other) c
    rw [hanswer, Party.other_other] at hbehind
    obtain ⟨rfl, -, hin, -⟩ := hbehind
    have hmove : Move.view K gs (X.other, env', .acceptContact (K.key X)) =
        (X.other, .answer true true) := congrArg (fun m => m.2) hgs
    have hsince : ∀ {newer es}, Run (Engines.step C)
        (fun _ es m => Keeping m ∧ Genuine K es m ∧ NotAdding K m ∧ Taken m) es₀
        (newer ++ (gs, (X.other, env', .acceptContact (K.key X))) :: rest) es →
        (es X.other).trustOf (K.key X) = some .accepted := by
      intro newer es run
      have h := accepted_since hstart hnew hok hmove run
      rwa [Party.other_other] at h
    refine ⟨mid, gs, env', rest, rfl, hin, ?_, fun m hmem => ?_⟩
    · rw [← List.cons_append, ← List.append_assoc] at run
      exact hsince run
    · obtain ⟨front, back, hsplit⟩ := List.mem_iff_append.mp hmem
      rw [← List.cons_append, ← List.append_assoc, hsplit, List.append_assoc] at run
      exact hsince run.cut.1
  · intro hcounters harrived
    have hview := handshake_run hstart hnew hok run
    have hshort := answers_short hstrangers hview
    have htied := tied_view hstart hnew run hcounters
    have hboth : ∀ X : Party, (es X.other).trustOf (K.key X) = some .accepted →
        (es X).trustOf (K.key X.other) = some .accepted := by
      intro X ht
      have hwhy := htied.why X.other (by
        change (es X.other).trustOf (K.key X.other.other) = _
        rwa [Party.other_other])
      rw [Party.other_other] at hwhy
      obtain ⟨l, hl | hl⟩ := hwhy
      · obtain ⟨q, hq⟩ := yes_arrives hstart hshort run harrived hl.1
        exact (htied.done X q l hq (mem_answers.mp hl.1).2 hl.2).2
      · exact htied.bound X l hl
    exact ⟨hboth .B, hboth .A⟩

def agreed : List (Party × Engine.Call) :=
  [(.A, .sendContactRequest (twoParties.key .B) address []),
   (.B, .poll (some (box .A 0 .contactRequest []))),
   (.B, .acceptContact (twoParties.key .A)),
   (.A, .poll (some (box .B 0 .contactResponse [kAccept])))]

theorem handshake_agreement_agreed :
    ((scene agreed).2 .A).trustOf (twoParties.key .B) = some .accepted ∧
      (((scene agreed).2 .A).trustOf (twoParties.key .B) = some .accepted ↔
        ((scene agreed).2 .B).trustOf (twoParties.key .A) = some .accepted) := by
  have run := scene_run (fun _ es m => Keeping m ∧ Genuine twoParties es m ∧
    NotAdding twoParties m) agreed (by decide +kernel)
  have h := handshake_agreement newEngines_started (by unfold NoRecord; decide)
    (run.mono fun _ _ _ hm => ⟨hm.1.1, hm.1.2.1, hm.1.2.2, hm.2⟩)
  exact ⟨by decide +kernel, h.2 (by decide +kernel) (by decide +kernel)⟩

end OpenMesh.Messaging.Agreement
