import OpenMesh.Messaging.Agreement

namespace OpenMesh.Messaging.Crossing

open OpenMesh.Core.Buffers OpenMesh.Core.Hex OpenMesh.Crypto.Primitives
open OpenMesh.Crypto.Reference OpenMesh.Library.Runs
open OpenMesh.Protocol.Envelope OpenMesh.Net.Transport OpenMesh.Storage.Database
open OpenMesh.Messaging.Operations OpenMesh.Messaging.Sides OpenMesh.Messaging.Projection
open OpenMesh.Messaging.Handling OpenMesh.Messaging.Simulation OpenMesh.Messaging.Pairs
open OpenMesh.Messaging.Routes OpenMesh.Messaging.Handshake OpenMesh.Messaging.Agreement

/-- The other is an accepted contact, or can be made one. -/
def Good (s : Side) : Prop := s.trust = some .accepted ∨ s.incoming ∧ s.listed

/-- A move as the claim has it: nothing is refused by the OS, nobody rejects,
nobody names a stranger, and a first request to a stranger is only made when the
requests of the other side have come in. -/
structure Careful (h : History Pair (Party × Act)) (p : Pair) (m : Party × Act) : Prop where
  permits : p.Permits m
  named : m.2 = .name → (p m.1).trust.isSome
  rejects : ∀ leaves, m.2 ≠ .answer false leaves
  asks : ∀ greeting leaves, m.2 = .ask greeting leaves → leaves = true ∧
    ((p m.1).trust = none → ∀ l ∈ requests (p m.1.other), ∃ q, (q, (m.1, .deliver l)) ∈ h)

theorem good_act {s : Side} {a : Act} (hallow : s.Allows a) (hreject : ∀ leaves, a ≠ .answer false leaves)
    (hyes : ∀ l, a = .deliver l → l.type = .contactResponse → saysYes l.text) (h : Good s) :
    Good (s.act a) := by
  obtain h | ⟨hin, hlisted⟩ := h
  · obtain h | ⟨leaves, ha⟩ | ⟨l, ha, hty, -, hno⟩ := accepted_act s hallow h
    · exact .inl h
    · exact absurd ha (hreject leaves)
    · rw [hyes l ha hty] at hno
      cases hno
  · cases a with
    | deliver l =>
      right
      obtain ⟨-, he⟩ | ⟨-, -, hi, hl, -⟩ | ⟨-, -, -, -, hi, hl, -⟩ | ⟨-, -, -, -, hi, hl, -⟩ :=
          Handshake.delivery s l
      · rw [he]
        exact ⟨hin, hlisted⟩
      · rw [hi, hl]
        exact ⟨hin, hlisted⟩
      · exact ⟨hi, hl⟩
      · rw [hi, hl]
        exact ⟨hin, hlisted⟩
    | answer accept leaves =>
      cases accept with
      | true => exact .inl rfl
      | false => exact absurd rfl (hreject leaves)
    | _ => exact .inr ⟨hin, hlisted⟩

theorem posted_types {a : Act} {c : UInt64} {l : Letter} (h : l ∈ a.posted c) :
    l.type = .contactRequest ∨ l.type = .contactResponse ∨ l.type = .message := by
  cases a with
  | ask greeting leaves =>
    cases leaves with
    | true => exact .inl (by rw [List.mem_singleton.mp h])
    | false => cases h
  | answer accept leaves =>
    cases leaves with
    | true => exact .inr (.inl (by rw [List.mem_singleton.mp h]))
    | false => cases h
  | tell text leaves =>
    cases leaves with
    | true => exact .inr (.inr (by rw [List.mem_singleton.mp h]))
    | false => cases h
  | _ => cases h

structure Uncrossed (h : History Pair (Party × Act)) (p : Pair) : Prop where
  orderly : Orderly p
  types : ∀ X, ∀ l ∈ (p X).letters,
    l.type = .contactRequest ∨ l.type = .contactResponse ∨ l.type = .message
  posted : ∀ X q l, (q, (X, .deliver l)) ∈ h → l ∈ (p X.other).letters
  yes : ∀ X, ∀ l ∈ answers (p X), saysYes l.text ∧ Good (p X)
  known : ∀ X, (p X).trust.isSome → requests (p X) ≠ [] ∨ Good (p X)
  marked : ∀ X, (p X).mark ≠ none → (p X).trust.isSome ∨ Good (p X.other)
  alone : ∀ X, requests (p X) ≠ [] → requests (p X.other) = [] →
    Good (p X) ∨ Good (p X.other) ∨ (p X.other).trust = none ∧
      ∀ q, ∀ l ∈ requests (p X), (q, (X.other, .deliver l)) ∉ h
  both : ∀ X, requests (p X) ≠ [] → requests (p X.other) ≠ [] → Good (p X) ∨ Good (p X.other)

theorem uncrossed_start {p : Pair} (h : Strangers p) : Uncrossed [] p := by
  have hno : ∀ X, requests (p X) = [] := fun X => by simp [requests, (h.starting X).letters]
  refine ⟨orderly_start h, fun X l hl => ?_, fun X q l hq => absurd hq List.not_mem_nil,
    fun X l hl => ?_, fun X ht => ?_, fun X hm => absurd (h.starting X).mark hm,
    fun X hr => absurd (hno X) hr, fun X hr => absurd (hno X) hr⟩
  · simp [(h.starting X).letters] at hl
  · simp [answers, (h.starting X).letters] at hl
  · simp [h.trust X] at ht

section Step

variable {h : History Pair (Party × Act)} {p : Pair} {X : Party} {a : Act}

theorem good_step (inv : Uncrossed h p) (careful : Careful h p (X, a)) (hg : Good (p X)) :
    Good ((p X).act a) := by
  refine good_act careful.permits.allowed careful.rejects (fun l hl hty => ?_) hg
  exact (inv.yes X.other l (mem_answers.mpr ⟨careful.permits.posted l hl, hty⟩)).1

theorem incoming_good (inv : Uncrossed h p) {l : Letter} (hty : l.type = .contactRequest)
    (ht : (p X).trust = none) (htakes : (p X).Takes l) : Good ((p X).act (.deliver l)) := by
  have hnot : ¬ (p X).incoming := fun hin => by simpa [ht] using (inv.orderly.asked X (.inl hin)).2
  obtain ⟨hn, -⟩ | ⟨-, -, -, -, -, hq, -⟩ | ⟨-, -, -, -, hi, hl, -⟩ | ⟨-, hr, -⟩ :=
      Handshake.delivery (p X) l
  · exact absurd htakes hn
  · obtain h | h := hq hty
    · simp [ht] at h
    · exact absurd h hnot
  · exact .inr ⟨hi, hl⟩
  · simp [hty] at hr

theorem known_step (inv : Uncrossed h p) (careful : Careful h p (X, a))
    (hs : ((p X).act a).trust.isSome) : requests ((p X).act a) ≠ [] ∨ Good ((p X).act a) := by
  by_cases ht : (p X).trust.isSome
  · exact (inv.known X ht).imp (requests_grow (p X)) (good_step inv careful)
  have hnone : (p X).trust = none := by simpa using ht
  cases a with
  | idle => exact absurd hs ht
  | listen => exact absurd hs ht
  | add => exact .inr (.inl rfl)
  | name => exact absurd (careful.named rfl) ht
  | ask greeting leaves =>
    left
    obtain rfl := (careful.asks greeting leaves rfl).1
    simp [requests_act]
  | answer accept leaves => exact absurd (inv.orderly.asked X (.inl careful.permits.allowed)).2 ht
  | tell text leaves => exact absurd hs ht
  | deliver l =>
    right
    obtain ⟨-, he⟩ | ⟨-, htr, -⟩ | ⟨-, -, -, -, hi, hl, -⟩ | ⟨-, hty, -, htrust, -⟩ :=
        Handshake.delivery (p X) l
    · rw [he] at hs
      exact absurd hs ht
    · rw [htr] at hs
      exact absurd hs ht
    · exact .inr ⟨hi, hl⟩
    · have hans := inv.yes X.other l (mem_answers.mpr ⟨careful.permits.posted l rfl, hty⟩)
      left
      rw [htrust, hans.1]
      rfl

theorem first_step (inv : Uncrossed h p) (careful : Careful h p (X, a))
    (hnil : requests (p X.other) = []) :
    Good ((p X).act a) ∨ Good (p X.other) ∨ (p X.other).trust = none ∧
      ∀ q, ∀ l ∈ requests ((p X).act a), (q, (X.other, .deliver l)) ∉ (p, (X, a)) :: h := by
  have hnew : ∀ q l, (q, (X.other, .deliver l)) ∈ (p, (X, a)) :: h →
      (q, (X.other, .deliver l)) ∈ h := fun q l hq =>
    (List.mem_cons.mp hq).resolve_left fun he => X.other_ne (congrArg (fun m => m.2.1) he)
  have hold : ∀ q l, l.type = .contactRequest → (q, (X.other, .deliver l)) ∈ h →
      l ∈ requests (p X) := fun q l hty hq => by
    have hmem := inv.posted X.other q l hq
    rw [Party.other_other] at hmem
    exact mem_requests.mpr ⟨hmem, hty⟩
  by_cases hfirst : requests (p X) = []
  · by_cases ht : (p X.other).trust.isSome
    · exact .inr (.inl ((inv.known X.other ht).resolve_left (absurd hnil)))
    · refine .inr (.inr ⟨by simpa using ht, fun q l hl hq => ?_⟩)
      have := hold q l (mem_requests.mp hl).2 (hnew q l hq)
      simp [hfirst] at this
  · obtain hg | hg | ⟨ht, hno⟩ := inv.alone X hfirst hnil
    · exact .inl (good_step inv careful hg)
    · exact .inr (.inl hg)
    · refine .inr (.inr ⟨ht, fun q l hl hq => ?_⟩)
      exact hno q l (hold q l (mem_requests.mp hl).2 (hnew q l hq)) (hnew q l hq)

theorem second_step (inv : Uncrossed h p) (careful : Careful h p (X, a))
    (hr : requests (p X.other) ≠ []) (hnil : requests ((p X).act a) = []) :
    Good (p X.other) ∨ Good ((p X).act a) ∨ ((p X).act a).trust = none ∧
      ∀ q, ∀ l ∈ requests (p X.other), (q, (X, .deliver l)) ∉ (p, (X, a)) :: h := by
  have hbefore : requests (p X) = [] := by
    by_contra hne
    exact requests_grow (p X) hne hnil
  by_cases hs : ((p X).act a).trust.isSome
  · exact .inr (.inl ((known_step inv careful hs).resolve_left (absurd hnil)))
  have halone := inv.alone X.other hr
  rw [Party.other_other] at halone
  obtain hg | hg | ⟨ht, hno⟩ := halone hbefore
  · exact .inl hg
  · exact .inr (.inl (good_step inv careful hg))
  by_cases hm : (p X).mark = none
  · refine .inr ?_
    by_cases hdeliver : ∃ l ∈ requests (p X.other), a = .deliver l
    · obtain ⟨l, hl, rfl⟩ := hdeliver
      have hty := (mem_requests.mp hl).2
      exact .inl (incoming_good inv hty ht ⟨fun h => by simp [hty] at h, by simp [hm]⟩)
    · refine .inr ⟨by simpa using hs, fun q l hl hq => ?_⟩
      obtain he | hq := List.mem_cons.mp hq
      · exact hdeliver ⟨l, hl, (congrArg (fun m => m.2.2) he).symm⟩
      · exact hno q l hl hq
  · exact .inl ((inv.marked X hm).resolve_left (by simp [ht]))

/-- The second of two first requests is made by one who has heard the other. -/
theorem both_step (inv : Uncrossed h p) (careful : Careful h p (X, a))
    (hr : requests ((p X).act a) ≠ []) (hr' : requests (p X.other) ≠ []) :
    Good ((p X).act a) ∨ Good (p X.other) := by
  by_cases hfirst : requests (p X) = []
  swap
  · exact (inv.both X hfirst hr').imp (good_step inv careful) id
  cases a with
  | ask greeting leaves =>
    have halone := inv.alone X.other hr'
    rw [Party.other_other] at halone
    obtain hg | hg | ⟨ht, hno⟩ := halone hfirst
    · exact .inr hg
    · exact .inl (good_step inv careful hg)
    · obtain ⟨l, hl⟩ := List.exists_mem_of_ne_nil _ hr'
      obtain ⟨q, hq⟩ := (careful.asks greeting leaves rfl).2 ht l hl
      exact absurd hq (hno q l hl)
  | _ => exact absurd (by simpa [requests_act] using hfirst) hr

theorem marked_step (inv : Uncrossed h p) (careful : Careful h p (X, a))
    (hm : ((p X).act a).mark ≠ none) : ((p X).act a).trust.isSome ∨ Good (p X.other) := by
  obtain ⟨c, hc⟩ := Option.ne_none_iff_exists'.mp hm
  obtain hc | ⟨l, rfl, htakes, -⟩ := mark_act (p X) hc
  · have hm' : (p X).mark ≠ none := by
      rw [Option.mem_def.mp hc]
      simp
    exact (inv.marked X hm').imp (trust_isSome (p X)) id
  have hposted := careful.permits.posted l rfl
  obtain hty | hty | hty := inv.types X.other l hposted
  · left
    obtain ⟨hn, -⟩ | ⟨-, -, -, -, -, hq, -⟩ | ⟨-, -, -, htrust, -⟩ | ⟨-, hr, -⟩ :=
        Handshake.delivery (p X) l
    · exact absurd htakes hn
    · refine trust_isSome (p X) ?_
      obtain h | h := hq hty
      · exact h
      · exact (inv.orderly.asked X (.inl h)).2
    · rw [htrust]
      rfl
    · simp [hty] at hr
  · exact .inr (inv.yes X.other l (mem_answers.mpr ⟨hposted, hty⟩)).2
  · left
    refine trust_isSome (p X) ?_
    rw [htakes.1 hty]
    rfl

theorem yes_step (inv : Uncrossed h p) (careful : Careful h p (X, a)) {l : Letter}
    (hl : l ∈ answers ((p X).act a)) : saysYes l.text ∧ Good ((p X).act a) := by
  rw [answers_act] at hl
  obtain hl | hl := List.mem_append.mp hl
  · exact ⟨(inv.yes X l hl).1, good_step inv careful (inv.yes X l hl).2⟩
  · cases a with
    | answer accept leaves =>
      cases leaves with
      | false => cases hl
      | true =>
        cases accept with
        | false => exact absurd rfl (careful.rejects true)
        | true =>
          obtain rfl := List.mem_singleton.mp hl
          exact ⟨saysYes_decision true, .inl rfl⟩
    | _ => cases hl

theorem uncrossed_step (inv : Uncrossed h p) (careful : Careful h p (X, a)) :
    Uncrossed ((p, (X, a)) :: h) (p.step (X, a)) := by
  have hself : p.step (X, a) X = (p X).act a := p.step_self X a
  have hother : p.step (X, a) X.other = p X.other := p.step_other X a
  refine ⟨orderly_step inv.orderly careful.permits, ?_, ?_, ?_, ?_, ?_, ?_, ?_⟩
  · intro Z l hl
    obtain rfl | rfl := X.eq_or_other Z
    · rw [hself, Side.act_letters] at hl
      exact (List.mem_append.mp hl).elim (inv.types Z l) posted_types
    · rw [hother] at hl
      exact inv.types _ l hl
  · intro Z q l hq
    have hgrow : ∀ Y, l ∈ (p Y).letters → l ∈ (p.step (X, a) Y).letters := by
      intro Y hl
      obtain rfl | rfl := X.eq_or_other Y
      · rw [hself, Side.act_letters]
        exact List.mem_append_left _ hl
      · rwa [hother]
    apply hgrow
    obtain he | hq := List.mem_cons.mp hq
    · obtain ⟨rfl, rfl, rfl⟩ : q = p ∧ Z = X ∧ .deliver l = a := by simpa using he
      exact careful.permits.posted l rfl
    · exact inv.posted Z q l hq
  · intro Z l hl
    obtain rfl | rfl := X.eq_or_other Z
    · rw [hself] at hl ⊢
      exact yes_step inv careful hl
    · rw [hother] at hl ⊢
      exact inv.yes _ l hl
  · intro Z ht
    obtain rfl | rfl := X.eq_or_other Z
    · rw [hself] at ht ⊢
      exact known_step inv careful ht
    · rw [hother] at ht ⊢
      exact inv.known _ ht
  · intro Z hm
    obtain rfl | rfl := X.eq_or_other Z
    · rw [hself] at hm ⊢
      rw [hother]
      exact marked_step inv careful hm
    · rw [hother] at hm ⊢
      rw [Party.other_other, hself]
      have hmarked := inv.marked _ hm
      rw [Party.other_other] at hmarked
      exact hmarked.imp id (good_step inv careful)
  · intro Z hr hnil
    obtain rfl | rfl := X.eq_or_other Z
    · rw [hself] at hr ⊢
      rw [hother] at hnil ⊢
      exact first_step inv careful hnil
    · rw [hother] at hr ⊢
      rw [Party.other_other, hself] at hnil ⊢
      exact second_step inv careful hr hnil
  · intro Z hr hr'
    obtain rfl | rfl := X.eq_or_other Z
    · rw [hself] at hr ⊢
      rw [hother] at hr' ⊢
      exact both_step inv careful hr hr'
    · rw [hother] at hr ⊢
      rw [Party.other_other, hself] at hr' ⊢
      exact (both_step inv careful hr' hr).symm

end Step

theorem uncrossed_run {p₀ p : Pair} {h : History Pair (Party × Act)} (hstart : Strangers p₀)
    (run : Run Pair.step Careful p₀ h p) : Uncrossed h p :=
  run.invariant _ (uncrossed_start hstart) fun _ _ _ _ inv careful => uncrossed_step inv careful

theorem accepted_kept {p₀ p q : Pair} {newer older : History Pair (Party × Act)} {X Y : Party}
    {a : Act} (hstart : Strangers p₀)
    (run : Run Pair.step Careful p₀ (newer ++ (q, (Y, a)) :: older) p)
    (h : (q X).trust = some .accepted) : (p X).trust = some .accepted := by
  have hmove : ∀ (h : History Pair (Party × Act)) (p : Pair) (m : Party × Act),
      Run Pair.step Careful p₀ h p → (p X).trust = some .accepted → Careful h p m →
      (p.step m X).trust = some .accepted := by
    rintro h p ⟨Z, b⟩ before ht careful
    obtain rfl | rfl := Z.eq_or_other X
    · rw [Pair.step_self]
      obtain ht | ⟨leaves, hb⟩ | ⟨l, hb, hty, -, hno⟩ :=
          accepted_act (p X) careful.permits.allowed ht
      · exact ht
      · exact absurd hb (careful.rejects leaves)
      · have hl := mem_answers.mpr ⟨careful.permits.posted l hb, hty⟩
        rw [((uncrossed_run hstart before).yes X.other l hl).1] at hno
        cases hno
    · rw [Pair.step_other]
      exact ht
  obtain ⟨before, careful⟩ := run.cut
  exact run.stable (fun _ p => (p X).trust = some .accepted) hmove
    (hmove older q (Y, a) before h careful)

theorem asked_kept {ok : History Pair (Party × Act) → Pair → Party × Act → Prop} {p₀ p q : Pair}
    {newer older : History Pair (Party × Act)} {X : Party} {greeting : Bytes}
    (run : Run Pair.step ok p₀ (newer ++ (q, (X, .ask greeting true)) :: older) p) :
    requests (p X) ≠ [] := by
  refine Pair.kept (P := fun s => requests s ≠ []) (fun s _ h => requests_grow s h) run ?_
  rw [Pair.step_self, requests_act]
  simp

theorem requests_short {p₀ p : Pair} {h : History Pair (Party × Act)} (hstart : Strangers p₀)
    (run : Run Pair.step (fun _ _ m => ∀ greeting leaves, m.2 = .ask greeting leaves →
      greeting.length ≤ kLongestText) p₀ h p) (X : Party) :
    ∀ l ∈ requests (p X), l.text.length ≤ kLongestText := by
  refine run.invariant (fun _ p => ∀ l ∈ requests (p X), l.text.length ≤ kLongestText) ?_ ?_
  · simp [requests, (hstart.starting X).letters]
  · rintro _ q ⟨Y, a⟩ _ ih hm
    obtain rfl | rfl := X.eq_or_other Y
    · rw [Pair.step_self, requests_act]
      intro l hl
      obtain hl | hl := List.mem_append.mp hl
      · exact ih l hl
      · split at hl
        · obtain rfl := List.mem_singleton.mp hl
          exact hm _ _ rfl
        · cases hl
    · have hsame : q.step (X.other, a) X = q X := by simpa using q.step_other X.other a
      rwa [hsame]

variable {C : Sodium} (K : Keyring C)

/-- The other party is not rejected, is not given a nickname before it is known
and is not sent a longer greeting than a datagram carries; and whoever knows
nothing of the other asks only when no request of the other is under way. -/
def Polite (h : History Engines Move) (es : Engines) (m : Move) : Prop :=
  m.2.2.rejects ≠ some (K.key m.1.other) ∧
  (m.2.2.names = some (K.key m.1.other) → (es m.1).trustOf (K.key m.1.other) ≠ none) ∧
  ∀ q ∈ m.2.2.asks, q.1 = K.key m.1.other → q.2.length ≤ kLongestText ∧
    ((es m.1).trustOf (K.key m.1.other) = none → ∀ p ∈ (es m.1.other).socket.sent,
      p.2.destination = K.key m.1 → p.2.type = .contactRequest → ∃ m' ∈ h, Brings m'.2 m.1 p.2)

instance (h : History Engines Move) (es : Engines) (m : Move) : Decidable (Polite K h es m) :=
  inferInstanceAs (Decidable (_ ∧ _ ∧ ∀ q ∈ m.2.2.asks, _))

/-- The party has called `send_contact_request` on the other; what it returned
was true, or the other was accepted already. -/
def Asked (h : History Engines Move) (X : Party) : Prop :=
  ∃ m ∈ h, m.2.1 = X ∧ (∃ q ∈ m.2.2.2.asks, q.1 = K.key X.other) ∧
    (((m.1 X).call C m.2.2.1 m.2.2.2).2 = true ∨
      (m.1 X).trustOf (K.key X.other) = some .accepted)

instance (h : History Engines Move) (X : Party) : Decidable (Asked K h X) :=
  inferInstanceAs (Decidable (∃ m ∈ h, _))

/-- The party has accepted the other, or has only to call `accept_contact`. -/
def Settled (es : Engines) (X : Party) : Prop :=
  (es X).trustOf (K.key X.other) = some .accepted ∨
    toHex (K.key X.other) ∈ (es X).incomingRequests ∧
      ∀ env : Env, (∀ dest data, env.takes dest data = true) →
        ((es X).acceptContact C env (K.key X.other)).2 = true

variable {K} {es₀ es : Engines} {h : History Engines Move}
variable {ok : History Engines Move → Engines → Move → Prop}

theorem requests_view (hstart : ∀ X, Started C (K.identity X) (es₀ X)) (hnew : NoRecord K es₀)
    (hok : ∀ h es m, ok h es m → Keeping m ∧ Genuine K es m ∧ Taken m ∧ Polite K h es m)
    (run : Run (Engines.step C) ok es₀ h es) (X : Party) :
    ∀ l ∈ requests (view K es X), l.text.length ≤ kLongestText := by
  refine requests_short (h := views K h) (strangers_view hstart hnew) ?_ X
  refine (run_view (fun _ _ m => ∀ greeting leaves, m.2 = .ask greeting leaves →
    greeting.length ≤ kLongestText) hstart (fun h es m hm => ⟨(hok h es m hm).1, (hok h es m hm).2.1⟩)
    (fun h es m _ hm greeting leaves ha => ?_) run).mono fun _ _ _ hm => hm.2
  have hb := act_call (C := C) m.2.1 (es m.1) (K.key m.1.other) m.2.2
  rw [show act C m.2.1 (es m.1) (K.key m.1.other) m.2.2 = .ask greeting leaves from ha] at hb
  obtain ⟨⟨endpoint, he⟩, -⟩ := hb
  exact ((hok h es m hm).2.2.2.2.2 (K.key m.1.other, greeting) (by rw [he]; rfl) rfl).1

theorem careful_view (hstart : ∀ X, Started C (K.identity X) (es₀ X)) (hnew : NoRecord K es₀)
    (hok : ∀ h es m, ok h es m → Keeping m ∧ Genuine K es m ∧ Taken m ∧ Polite K h es m)
    (run : Run (Engines.step C) ok es₀ h es) {m : Move} (hm : ok h es m) :
    Careful (views K h) (view K es) (m.view K es) := by
  obtain ⟨-, hgen, htaken, hreject, hname, hask⟩ := hok h es m hm
  have ready := ready_run (K := K) hstart run
  have hb := act_call (C := C) m.2.1 (es m.1) (K.key m.1.other) m.2.2
  have hbehind : ∀ a, (m.view K es).2 = a →
      Behind C m.2.1 (es m.1) (K.key m.1.other) m.2.2 a := fun a ha => ha ▸ hb
  refine ⟨permits_view ready hgen, fun ha => ?_, fun leaves ha => ?_, fun greeting leaves ha => ?_⟩
  · obtain ⟨name, he⟩ := hbehind _ ha
    exact Option.isSome_iff_ne_none.mpr (hname (by rw [he]; rfl))
  · obtain ⟨he, -⟩ := hbehind _ ha
    exact hreject (by rw [he]; rfl)
  · refine ⟨ask_leaves ha htaken, fun ht l hl => ?_⟩
    obtain ⟨⟨endpoint, he⟩, -⟩ := hbehind _ ha
    obtain ⟨hmem, hty⟩ := mem_requests.mp hl
    obtain ⟨p, hp, hd, hlet⟩ := (mem_letters ready).mp hmem
    have hd' : p.2.destination = K.key m.1 := by rwa [Move.view, Party.other_other] at hd
    have hpty : p.2.type = .contactRequest := (letterOf_eq_some_iff.mp hlet).2.1 ▸ hty
    have hbrought := (hask (K.key m.1.other, greeting) (by rw [he]; rfl) rfl).2 ht p hp hd' hpty
    exact brings_delivers hstart run hp hd' hlet (requests_view hstart hnew hok run _ l hl) hbrought

theorem asked_view {X : Party} {fs : Engines} {m : Move} (hX : m.1 = X) (htaken : Taken m)
    (hask : ∃ q ∈ m.2.2.asks, q.1 = K.key X.other) (htrue : ((fs X).call C m.2.1 m.2.2).2 = true) :
    ((fs X).opened C (K.key X.other)).isSome ∧
      ∃ greeting, m.view K fs = (X, .ask greeting true) := by
  obtain ⟨Y, env, c⟩ := m
  obtain rfl : Y = X := hX
  obtain ⟨⟨r, greeting⟩, hq, hr⟩ := hask
  cases c with
  | sendContactRequest r' endpoint greeting' =>
    cases hq
    obtain rfl : r = K.key Y.other := hr
    have htrust : (fs Y).trustOf (K.key Y.other) ≠ some .accepted := fun h => by
      simp [Engine.call, Engine.sendContactRequest, h] at htrue
    have hopened : ((fs Y).opened C (K.key Y.other)).isSome := by
      cases hs : (fs Y).ensureSession C (K.key Y.other) with
      | none => simp [Engine.call, Engine.sendContactRequest, htrust, hs] at htrue
      | some p => rw [(Engine.ensureSession_eq_some hs).1]; rfl
    refine ⟨hopened, greeting, ?_⟩
    simp only [Move.view, act, hopened, htrust, ne_eq, not_false_eq_true, and_self, ↓reduceIte, htrue]
  | _ => cases hq

/-- Two parties that have both asked are not stuck, unless their first requests
crossed. -/
theorem requests_settle (hstart : ∀ X, Started C (K.identity X) (es₀ X)) (hnew : NoRecord K es₀)
    (run : Run (Engines.step C)
      (fun h es m => Keeping m ∧ Genuine K es m ∧ Taken m ∧ Polite K h es m) es₀ h es)
    (hasked : ∀ X, Asked K h X) : ∃ X, Settled K es X := by
  have hok : ∀ h es m, Keeping m ∧ Genuine K es m ∧ Taken m ∧ Polite K h es m →
      Keeping m ∧ Genuine K es m ∧ Taken m ∧ Polite K h es m := fun _ _ _ h => h
  have hstrangers := strangers_view (K := K) hstart hnew
  have hview : Run Pair.step Careful (view K es₀) (views K h) (view K es) :=
    (run_view Careful hstart (fun _ _ _ hm => ⟨hm.1, hm.2.1⟩)
      (fun _ _ _ before hm => careful_view hstart hnew hok before hm) run).mono fun _ _ _ hm => hm.2
  by_cases haccepted : ∃ X, (es X).trustOf (K.key X.other) = some .accepted
  · obtain ⟨X, hX⟩ := haccepted
    exact ⟨X, .inl hX⟩
  have hboth : ∀ X, requests (view K es X) ≠ [] ∧ ((es X).opened C (K.key X.other)).isSome := by
    intro X
    obtain ⟨⟨fs, m⟩, hmem, hX, hask, hresult⟩ := hasked X
    obtain ⟨newer, older, rfl⟩ := List.mem_iff_append.mp hmem
    obtain ⟨before, hm⟩ := run.cut
    have hviews : views K (newer ++ (fs, m) :: older) =
        views K newer ++ (view K fs, m.view K fs) :: views K older := by simp [views]
    rw [hviews] at hview
    obtain htrue | ht := hresult
    · obtain ⟨hopened, greeting, hact⟩ := asked_view hX hm.2.2.1 hask htrue
      rw [hact] at hview
      refine ⟨asked_kept hview, opened_isSome ?_⟩
      obtain ⟨s, hs⟩ := Option.isSome_iff_exists.mp hopened
      have ready := ready_run (K := K) hstart before
      have hsecret := ((ready_run (K := K) hstart run).localSecret X).trans (ready.localSecret X).symm
      rw [hsecret, ((ready.sound X).opened hs).2.2.2]
      rfl
    · exact absurd ⟨X, accepted_kept hstrangers hview ht⟩ haccepted
  have hgood := (uncrossed_run hstrangers hview).both .A (hboth .A).1 (hboth .B).1
  have hsettled : ∀ X, Good (view K es X) → Settled K es X := by
    intro X hg
    refine hg.imp id fun hin => ?_
    have hin' : toHex (K.key X.other) ∈ (es X).incomingRequests := of_decide_eq_true hin.1
    refine ⟨hin', fun env htakes => answerContact_leaves (hboth X).2 hin' ?_ htakes⟩
    exact (connected_run hstart hnew (fun _ _ _ hm => hm.1) run X).2 hin'
  obtain hg | hg := hgood
  · exact ⟨.A, hsettled .A hg⟩
  · exact ⟨.B, hsettled .B hg⟩

def askedBack : List (Party × Engine.Call) :=
  [(.A, .sendContactRequest (twoParties.key .B) address []),
   (.B, .poll (some (box .A 0 .contactRequest []))),
   (.B, .sendContactRequest (twoParties.key .A) address []),
   (.A, .poll (some (box .B 0 .contactRequest [])))]

theorem requests_settle_askedBack : ∃ X, Settled twoParties (scene askedBack).2 X := by
  have run := scene_run (fun h es m => Keeping m ∧ Genuine twoParties es m ∧
    Polite twoParties h es m) askedBack (by decide +kernel)
  exact requests_settle newEngines_started (by unfold NoRecord; decide)
    (run.mono fun _ _ _ hm => ⟨hm.1.1, hm.1.2.1, hm.2, hm.1.2.2⟩) (by decide +kernel)

def crossing : List (Party × Engine.Call) :=
  [(.A, .sendContactRequest (twoParties.key .B) address []),
   (.B, .sendContactRequest (twoParties.key .A) address []),
   (.A, .poll (some (box .B 0 .contactRequest []))),
   (.B, .poll (some (box .A 0 .contactRequest [])))]

def named : List (Party × Engine.Call) :=
  [(.A, .setNickname (twoParties.key .B) [66]),
   (.B, .sendContactRequest (twoParties.key .A) address []),
   (.A, .poll (some (box .B 0 .contactRequest []))),
   (.A, .sendContactRequest (twoParties.key .B) address []),
   (.B, .poll (some (box .A 0 .contactRequest [])))]

def oversized : List (Party × Engine.Call) :=
  let greeting := List.replicate (kLongestText + 1) 33
  [(.A, .sendContactRequest (twoParties.key .B) address greeting),
   (.B, .poll (some (box .A 0 .contactRequest greeting))),
   (.B, .sendContactRequest (twoParties.key .A) address []),
   (.A, .poll (some (box .B 0 .contactRequest [])))]

/-- Nothing is lost, nothing is under way, both have asked, and neither can accept. -/
def Deadlocks (script : List (Party × Engine.Call)) : Prop :=
  Run (Engines.step reference) (fun _ es m => (Keeping m ∧ Genuine twoParties es m ∧
      m.2.2.rejects ≠ some (twoParties.key m.1.other)) ∧ Taken m) newEngines
      (scene script).1 (scene script).2 ∧
    NoRecord twoParties newEngines ∧ Arrived twoParties (scene script).1 (scene script).2 ∧
    (∀ X, Asked twoParties (scene script).1 X) ∧
    ∀ X, ((scene script).2 X).trustOf (twoParties.key X.other) = some .pending ∧
      toHex (twoParties.key X.other) ∉ ((scene script).2 X).incomingRequests

theorem requests_deadlock : Deadlocks crossing ∧ Deadlocks named ∧ Deadlocks oversized := by
  have hlawful : ∀ script ∈ [crossing, named, oversized],
      Run.Lawful (Engines.step reference) (fun _ es m => Keeping m ∧ Genuine twoParties es m ∧
        m.2.2.rejects ≠ some (twoParties.key m.1.other)) [] newEngines
        (script.map fun m => (m.1, clock, m.2)) := by decide +kernel
  have hend : ∀ script ∈ [crossing, named, oversized],
      Arrived twoParties (scene script).1 (scene script).2 ∧
      (∀ X, Asked twoParties (scene script).1 X) ∧
      ∀ X, ((scene script).2 X).trustOf (twoParties.key X.other) = some .pending ∧
        toHex (twoParties.key X.other) ∉ ((scene script).2 X).incomingRequests := by decide +kernel
  have hall : ∀ script ∈ [crossing, named, oversized], Deadlocks script := fun script hs =>
    ⟨scene_run _ script (hlawful script hs), by unfold NoRecord; decide, hend script hs⟩
  exact ⟨hall _ (by simp), hall _ (by simp), hall _ (by simp)⟩

end OpenMesh.Messaging.Crossing
