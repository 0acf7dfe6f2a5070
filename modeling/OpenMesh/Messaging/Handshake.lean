import OpenMesh.Messaging.Pairs

namespace OpenMesh.Messaging.Handshake

open OpenMesh.Core.Buffers OpenMesh.Library.Runs OpenMesh.Protocol.Envelope
open OpenMesh.Storage.Database OpenMesh.Messaging.Operations OpenMesh.Messaging.Sides
open OpenMesh.Messaging.Pairs

def requests (s : Side) : List Letter := s.letters.filter (·.type = .contactRequest)

def answers (s : Side) : List Letter := s.letters.filter (·.type = .contactResponse)

theorem mem_answers {s : Side} {l : Letter} :
    l ∈ answers s ↔ l ∈ s.letters ∧ l.type = .contactResponse := by
  simp [answers]

theorem mem_requests {s : Side} {l : Letter} :
    l ∈ requests s ↔ l ∈ s.letters ∧ l.type = .contactRequest := by
  simp [requests]

section Act

variable (s : Side)

theorem requests_act (a : Act) : requests (s.act a) = requests s ++ match a with
    | .ask greeting true => [⟨.contactRequest, s.counter, greeting⟩]
    | _ => [] := by
  rw [requests, Side.act_letters, List.filter_append, requests]
  congr 1
  cases a with
  | ask greeting leaves => cases leaves <;> simp [Act.posted, Act.sealed]
  | answer accept leaves => cases leaves <;> simp [Act.posted, Act.sealed]
  | tell text leaves => cases leaves <;> simp [Act.posted, Act.sealed]
  | _ => simp [Act.posted, Act.sealed]

theorem answers_act (a : Act) : answers (s.act a) = answers s ++ match a with
    | .answer accept true => [⟨.contactResponse, s.counter, decision accept⟩]
    | _ => [] := by
  rw [answers, Side.act_letters, List.filter_append, answers]
  congr 1
  cases a with
  | ask greeting leaves => cases leaves <;> simp [Act.posted, Act.sealed]
  | answer accept leaves => cases leaves <;> simp [Act.posted, Act.sealed]
  | tell text leaves => cases leaves <;> simp [Act.posted, Act.sealed]
  | _ => simp [Act.posted, Act.sealed]

theorem requests_grow {a : Act} (h : requests s ≠ []) : requests (s.act a) ≠ [] := by
  rw [requests_act]
  exact List.append_ne_nil_of_left_ne_nil h _

theorem answers_grow {a : Act} {l : Letter} (h : l ∈ answers s) : l ∈ answers (s.act a) := by
  rw [answers_act]
  exact List.mem_append_left _ h

theorem answers_kept {a : Act} (h : answers s ≠ []) : answers (s.act a) ≠ [] := by
  rw [answers_act]
  exact List.append_ne_nil_of_left_ne_nil h _

/-- What a letter can do to the contact. -/
inductive Delivery (l : Letter) (s' : Side) : Prop
  | dropped (h : ¬ s.Takes l) (he : s' = s)
  | noted (h : s.Takes l) (htrust : s'.trust = s.trust) (hin : s'.incoming = s.incoming)
      (hlisted : s'.listed = s.listed) (hout : s'.outgoing = s.outgoing)
      (hrequest : l.type = .contactRequest → s.trust.isSome ∨ s.incoming)
      (hresponse : l.type = .contactResponse → s.outgoing = false)
  | requested (h : s.Takes l) (hty : l.type = .contactRequest) (ht : s.trust = none)
      (htrust : s'.trust = some .pending) (hin : s'.incoming) (hlisted : s'.listed)
      (hout : s'.outgoing = s.outgoing)
  | answered (h : s.Takes l) (hty : l.type = .contactResponse) (ho : s.outgoing)
      (htrust : s'.trust = some (verdict (saysYes l.text))) (hin : s'.incoming = s.incoming)
      (hlisted : s'.listed = s.listed) (hout : s'.outgoing = false)

theorem delivery (l : Letter) : Delivery s l (s.act (.deliver l)) := by
  rw [Side.act]
  by_cases h : s.Takes l
  swap
  · rw [if_neg h]
    exact .dropped h rfl
  rw [if_pos h]
  apply s.hear_cases l (Delivery s l)
  · intro hty
    exact .noted h rfl rfl rfl rfl (by simp [hty]) (by simp [hty])
  · intro hty
    unfold Side.request
    split
    · next hk => exact .noted h rfl rfl rfl rfl (fun _ => hk) (by simp [hty])
    · next hk =>
      simp only [not_or, Option.not_isSome_iff_eq_none] at hk
      exact .requested h hty hk.1 rfl rfl rfl rfl
  · intro hty
    unfold Side.response
    split
    · next ho => exact .answered h hty ho rfl rfl rfl rfl
    · next ho => exact .noted h rfl rfl rfl rfl (by simp [hty]) fun _ => by simpa using ho
  · intro _ hq hr
    exact .noted h rfl rfl rfl rfl (fun h => absurd h hq) (fun h => absurd h hr)

theorem trust_isSome {a : Act} (h : s.trust.isSome) : (s.act a).trust.isSome := by
  cases a with
  | deliver l =>
    obtain ⟨-, he⟩ | ⟨-, htrust, -⟩ | ⟨-, -, -, htrust, -⟩ | ⟨-, -, -, htrust, -⟩ := delivery s l
    · rwa [he]
    · rwa [htrust]
    · rw [htrust]
      rfl
    · rw [htrust]
      rfl
  | idle => exact h
  | listen => exact h
  | tell => exact h
  | _ => rfl

theorem incoming_act {a : Act} (h : (s.act a).incoming) :
    s.incoming ∧ (∀ accept leaves, a ≠ .answer accept leaves) ∨ s.trust = none ∧
      (s.act a).trust.isSome ∧ ∃ l, a = .deliver l ∧ s.Takes l ∧ l.type = .contactRequest := by
  cases a with
  | deliver l =>
    obtain ⟨-, he⟩ | ⟨-, -, hin, -⟩ | ⟨htakes, hty, ht, htrust, -⟩ | ⟨-, -, -, -, hin, -⟩ :=
        delivery s l
    · exact .inl ⟨by rwa [he] at h, nofun⟩
    · exact .inl ⟨by rwa [hin] at h, nofun⟩
    · exact .inr ⟨ht, by rw [htrust]; rfl, l, rfl, htakes, hty⟩
    · exact .inl ⟨by rwa [hin] at h, nofun⟩
  | answer => cases h
  | _ => exact .inl ⟨h, nofun⟩

theorem accepted_act {a : Act} (hallow : s.Allows a) (h : s.trust = some .accepted) :
    (s.act a).trust = some .accepted ∨ (∃ leaves, a = .answer false leaves) ∨
      ∃ l, a = .deliver l ∧ l.type = .contactResponse ∧ s.outgoing ∧ saysYes l.text = false := by
  cases a with
  | deliver l =>
    obtain ⟨-, he⟩ | ⟨-, htrust, -⟩ | ⟨-, -, ht, -⟩ | ⟨-, hty, ho, htrust, -⟩ := delivery s l
    · exact .inl (by rwa [he])
    · exact .inl (by rwa [htrust])
    · rw [ht] at h
      cases h
    · cases hy : saysYes l.text with
      | true => exact .inl (by rw [htrust, hy]; rfl)
      | false => exact .inr (.inr ⟨l, rfl, hty, ho, hy⟩)
  | ask => exact absurd h hallow
  | answer accept leaves =>
    cases accept with
    | true => exact .inl rfl
    | false => exact .inr (.inl ⟨leaves, rfl⟩)
  | add => exact .inl rfl
  | name => exact .inl (by simp [Side.act, h])
  | _ => exact .inl h

/-- The ways to become an accepted contact. -/
theorem accepts_act {a : Act} (h : (s.act a).trust = some .accepted) :
    s.trust = some .accepted ∨ a = .add ∨ (∃ leaves, a = .answer true leaves) ∨
      ∃ l, a = .deliver l ∧ s.Takes l ∧ l.type = .contactResponse ∧ s.outgoing ∧ saysYes l.text := by
  cases a with
  | deliver l =>
    obtain ⟨-, he⟩ | ⟨-, htrust, -⟩ | ⟨-, -, -, htrust, -⟩ | ⟨htakes, hty, ho, htrust, -⟩ :=
        delivery s l
    · exact .inl (by rwa [he] at h)
    · exact .inl (by rwa [htrust] at h)
    · rw [htrust] at h
      cases h
    · cases hy : saysYes l.text with
      | true => exact .inr (.inr (.inr ⟨l, rfl, htakes, hty, ho, hy⟩))
      | false =>
        rw [htrust, hy] at h
        cases h
  | ask => cases h
  | answer accept leaves =>
    cases accept with
    | true => exact .inr (.inr (.inl ⟨leaves, rfl⟩))
    | false => cases h
  | add => exact .inr (.inl rfl)
  | name =>
    cases ht : s.trust with
    | none => simp [Side.act, ht] at h
    | some t => exact .inl (by simpa [Side.act, ht] using h)
  | _ => exact .inl h

theorem outgoing_act {a : Act} (h : s.outgoing) :
    (s.act a).outgoing ∨ ∃ l, a = .deliver l ∧ l.type = .contactResponse := by
  cases a with
  | deliver l =>
    obtain ⟨-, he⟩ | ⟨-, -, -, -, hout, -⟩ | ⟨-, -, -, -, -, -, hout⟩ | ⟨-, hty, -⟩ := delivery s l
    · exact .inl (by rwa [he])
    · exact .inl (by rwa [hout])
    · exact .inl (by rwa [hout])
    · exact .inr ⟨l, rfl, hty⟩
  | ask => exact .inl rfl
  | _ => exact .inl h

theorem asked_act {a : Act} (h : (s.act a).outgoing) : (∃ greeting leaves, a = .ask greeting leaves) ∨
    s.outgoing ∧ ∀ l, a = .deliver l → s.Takes l → l.type ≠ .contactResponse := by
  cases a with
  | deliver l =>
    right
    obtain ⟨hn, he⟩ | ⟨-, -, -, -, hout, -, hr⟩ | ⟨-, hty, -, -, -, -, hout⟩ |
      ⟨-, -, -, -, -, -, hout⟩ := delivery s l
    · rw [he] at h
      exact ⟨h, fun l' ha htakes => by cases ha; exact absurd htakes hn⟩
    · rw [hout] at h
      exact ⟨h, fun l' ha _ hty => by cases ha; simp [hr hty] at h⟩
    · rw [hout] at h
      exact ⟨h, fun l' ha _ hty' => by cases ha; simp [hty] at hty'⟩
    · simp [hout] at h
  | ask greeting leaves => exact .inl ⟨greeting, leaves, rfl⟩
  | _ => exact .inr ⟨h, nofun⟩

theorem mark_act {a : Act} {c : UInt64} (h : c ∈ (s.act a).mark) :
    c ∈ s.mark ∨ ∃ l, a = .deliver l ∧ s.Takes l ∧ c = l.counter := by
  cases a with
  | deliver l =>
    rw [Side.act_mark_deliver] at h
    split at h
    · next ht =>
      cases h
      exact .inr ⟨l, rfl, ht, rfl⟩
    · exact .inl h
  | _ => exact .inl h

/-- A request of the peer has been taken in, and perhaps answered. -/
def Heard : Prop := s.incoming ∨ answers s ≠ []

theorem heard_act {a : Act} (hallow : s.Allows a) (h : Heard (s.act a)) :
    Heard s ∨ s.trust = none ∧ (s.act a).trust.isSome ∧
      ∃ l, a = .deliver l ∧ l.type = .contactRequest := by
  obtain h | h := h
  · obtain ⟨h, -⟩ | ⟨ht, hsome, l, ha, -, hty⟩ := incoming_act s h
    · exact .inl (.inl h)
    · exact .inr ⟨ht, hsome, l, ha, hty⟩
  · rw [answers_act] at h
    cases a with
    | answer => exact .inl (.inl hallow)
    | _ => exact .inl (.inr (by simpa using h))

theorem known_act {a : Act} (h : requests s ≠ [] → s.trust.isSome)
    (hr : requests (s.act a) ≠ []) : (s.act a).trust.isSome := by
  cases a with
  | ask => rfl
  | _ => exact trust_isSome s (h (by simpa [requests_act] using hr))

end Act

/-- Requests come before answers, and only one of the two takes in a request of
the other, once. -/
structure Orderly (p : Pair) : Prop where
  known : ∀ X, requests (p X) ≠ [] → (p X).trust.isSome
  asked : ∀ X, Heard (p X) → requests (p X.other) ≠ [] ∧ (p X).trust.isSome
  fresh : ∀ X, (p X).incoming → answers (p X) = []
  single : ∀ X, (answers (p X)).length ≤ 1
  oneway : ∀ X, Heard (p X) → ¬ Heard (p X.other)

theorem Orderly.unique {p : Pair} (orderly : Orderly p) {X : Party} {l l' : Letter}
    (h : l ∈ answers (p X)) (h' : l' ∈ answers (p X)) : l = l' := by
  obtain ⟨x, hx⟩ := List.length_eq_one_iff.mp
    (le_antisymm (orderly.single X) (List.length_pos_of_mem h))
  rw [hx] at h h'
  rw [List.mem_singleton.mp h, List.mem_singleton.mp h']

structure Strangers (p : Pair) : Prop where
  starting : ∀ X, (p X).Starting
  trust : ∀ X, (p X).trust = none
  listed : ∀ X, (p X).listed = false

theorem Strangers.not_heard {p : Pair} (h : Strangers p) (X : Party) : ¬ Heard (p X) := by
  have hin : (p X).incoming = false := (h.starting X).incoming.trans (h.listed X)
  simp [Heard, hin, answers, (h.starting X).letters]

theorem orderly_start {p : Pair} (h : Strangers p) : Orderly p where
  known X hr := absurd (by simp [requests, (h.starting X).letters]) hr
  asked X hh := absurd hh (h.not_heard X)
  fresh X _ := by simp [answers, (h.starting X).letters]
  single X := by simp [answers, (h.starting X).letters]
  oneway X hh := absurd hh (h.not_heard X)

theorem orderly_step {p : Pair} {m : Party × Act} (orderly : Orderly p) (permits : p.Permits m) :
    Orderly (p.step m) := by
  obtain ⟨X, a⟩ := m
  have hallow : (p X).Allows a := permits.allowed
  have hself : p.step (X, a) X = (p X).act a := p.step_self X a
  have hother : p.step (X, a) X.other = p X.other := p.step_other X a
  have hnew : Heard ((p X).act a) → ¬ Heard (p X.other) := by
    intro hh hheard
    obtain hold | ⟨hnone, -, -⟩ := heard_act (p X) hallow hh
    · exact orderly.oneway X hold hheard
    · have hr := (orderly.asked X.other hheard).1
      rw [Party.other_other] at hr
      simpa [hnone] using orderly.known X hr
  constructor
  · intro Z hr
    obtain rfl | rfl := X.eq_or_other Z
    · rw [hself] at hr ⊢
      exact known_act (p Z) (orderly.known Z) hr
    · rw [hother] at hr ⊢
      exact orderly.known _ hr
  · intro Z hh
    obtain rfl | rfl := X.eq_or_other Z
    · rw [hself] at hh
      rw [hself, hother]
      obtain hold | ⟨-, hsome, l, rfl, hty⟩ := heard_act (p Z) hallow hh
      · exact ⟨(orderly.asked Z hold).1, trust_isSome (p Z) (orderly.asked Z hold).2⟩
      · exact ⟨List.ne_nil_of_mem (mem_requests.mpr ⟨permits.posted l rfl, hty⟩), hsome⟩
    · rw [hother] at hh
      rw [hother, Party.other_other, hself]
      have h := orderly.asked _ hh
      rw [Party.other_other] at h
      exact ⟨requests_grow (p X) h.1, h.2⟩
  · intro Z hin
    obtain rfl | rfl := X.eq_or_other Z
    · rw [hself] at hin ⊢
      have hsame : answers (p Z) = [] ∧ ∀ accept leaves, a ≠ .answer accept leaves := by
        obtain ⟨hold, hne⟩ | ⟨hnone, -, l, rfl, -⟩ := incoming_act (p Z) hin
        · exact ⟨orderly.fresh Z hold, hne⟩
        · refine ⟨?_, nofun⟩
          by_contra hans
          simpa [hnone] using (orderly.asked Z (.inr hans)).2
      rw [answers_act, hsame.1]
      cases a with
      | answer accept leaves => exact absurd rfl (hsame.2 accept leaves)
      | _ => rfl
    · rw [hother] at hin ⊢
      exact orderly.fresh _ hin
  · intro Z
    obtain rfl | rfl := X.eq_or_other Z
    · rw [hself, answers_act]
      cases a with
      | answer accept leaves =>
        rw [orderly.fresh Z hallow]
        cases leaves <;> simp
      | _ => simpa using orderly.single Z
    · rw [hother]
      exact orderly.single _
  · intro Z hh
    obtain rfl | rfl := X.eq_or_other Z
    · rw [hself] at hh
      rw [hother]
      exact hnew hh
    · rw [hother] at hh
      rw [Party.other_other, hself]
      exact fun h => hnew h hh

end OpenMesh.Messaging.Handshake
