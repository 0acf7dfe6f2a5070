import OpenMesh.Messaging.Operations

namespace OpenMesh.Messaging.Sides

open OpenMesh.Core.Buffers OpenMesh.Protocol.Envelope OpenMesh.Storage.Database
open OpenMesh.Messaging.Operations

/-- What a sealed packet says to the one who can open it. -/
structure Letter where
  type : PacketType
  counter : UInt64
  text : Bytes
  deriving DecidableEq

/-- All that one engine keeps about one peer: the contact, the two request
sets, the session counters, the letters it has put on the wire for the peer
and the conversation. -/
structure Side where
  trust : Option TrustStatus := none
  incoming : Bool := false
  outgoing : Bool := false
  listed : Bool := false
  counter : UInt64 := 0
  mark : Option UInt64 := none
  letters : List Letter := []
  inbox : List Bytes := []
  outbox : List Bytes := []
  listening : Bool := false
  handed : List Bytes := []
  deriving DecidableEq

/-- What one call amounts to for one peer. `leaves` says whether the OS took
the datagram. -/
inductive Act where
  | idle
  | listen
  | add
  | name
  | ask (greeting : Bytes) (leaves : Bool)
  | answer (accept leaves : Bool)
  | tell (text : Bytes) (leaves : Bool)
  | deliver (letter : Letter)
  deriving DecidableEq

def decision (accept : Bool) : Bytes := [if accept then kAccept else kReject]

def verdict (accept : Bool) : TrustStatus := if accept then .accepted else .rejected

def saysYes (text : Bytes) : Bool := text.head? = some kAccept

def Act.sealed : Act → Option (PacketType × Bytes × Bool)
  | .ask greeting leaves => some (.contactRequest, greeting, leaves)
  | .answer accept leaves => some (.contactResponse, decision accept, leaves)
  | .tell text leaves => some (.message, text, leaves)
  | _ => none

def Act.posted (a : Act) (counter : UInt64) : List Letter :=
  match a.sealed with
  | some (type, text, true) => [⟨type, counter, text⟩]
  | _ => []

@[simp] theorem saysYes_decision (accept : Bool) : saysYes (decision accept) = accept := by
  cases accept <;> decide

namespace Side

def post (s : Side) (type : PacketType) (text : Bytes) (leaves : Bool) : Side :=
  let letters := if leaves then s.letters ++ [⟨type, s.counter, text⟩] else s.letters
  { s with counter := s.counter + 1, letters }

/-- A letter gets through when it is new and no message from a stranger. -/
def Takes (s : Side) (l : Letter) : Prop :=
  (l.type = .message → s.trust = some .accepted) ∧ ∀ c ∈ s.mark, c < l.counter

instance (s : Side) (l : Letter) : Decidable (s.Takes l) := inferInstanceAs (Decidable (_ ∧ _))

def request (s : Side) : Side :=
  if s.trust.isSome ∨ s.incoming then s
  else { s with trust := some .pending, incoming := true, listed := true }

def response (s : Side) (text : Bytes) : Side :=
  if s.outgoing then { s with outgoing := false, trust := some (verdict (saysYes text)) } else s

def message (s : Side) (text : Bytes) : Side :=
  let handed := if s.listening then s.handed ++ [text] else s.handed
  { s with inbox := s.inbox ++ [text], handed }

def hear (s : Side) (l : Letter) : Side :=
  let s := { s with mark := some l.counter }
  match l.type with
  | .message => s.message l.text
  | .contactRequest => s.request
  | .contactResponse => s.response l.text
  | _ => s

def act (s : Side) : Act → Side
  | .idle => s
  | .listen => { s with listening := true }
  | .add => { s with trust := some .accepted }
  | .name => { s with trust := some (s.trust.getD .pending) }
  | .ask greeting leaves =>
    { s with outgoing := true, trust := some .pending }.post .contactRequest greeting leaves
  | .answer accept leaves =>
    { s with incoming := false, listed := false, trust := some (verdict accept) }.post
      .contactResponse (decision accept) leaves
  | .tell text leaves =>
    let outbox := if leaves then s.outbox ++ [text] else s.outbox
    { s with outbox }.post .message text leaves
  | .deliver l => if s.Takes l then s.hear l else s

def heard (s : Side) : Act → List Bytes
  | .deliver l => if s.Takes l ∧ l.type = .message then [l.text] else []
  | _ => []

/-- The acts that the state of the contact permits. -/
def Allows (s : Side) : Act → Prop
  | .ask _ _ => s.trust ≠ some .accepted
  | .answer _ _ => s.incoming
  | .tell _ _ => s.trust = some .accepted
  | _ => True

/-- A side before the first call: only what the store keeps can be there. -/
structure Starting (s : Side) : Prop where
  incoming : s.incoming = s.listed
  outgoing : s.outgoing = false
  counter : s.counter = 0
  mark : s.mark = none
  letters : s.letters = []
  handed : s.handed = []

variable (s : Side)

theorem hear_cases (l : Letter) (P : Side → Prop)
    (hm : l.type = .message → P ({ s with mark := some l.counter }.message l.text))
    (hq : l.type = .contactRequest → P { s with mark := some l.counter }.request)
    (hr : l.type = .contactResponse → P ({ s with mark := some l.counter }.response l.text))
    (ho : l.type ≠ .message → l.type ≠ .contactRequest → l.type ≠ .contactResponse →
      P { s with mark := some l.counter }) : P (s.hear l) := by
  unfold hear
  cases ht : l.type with
  | message => exact hm ht
  | contactRequest => exact hq ht
  | contactResponse => exact hr ht
  | _ => exact ho (by simp [ht]) (by simp [ht]) (by simp [ht])

@[simp] theorem request_frame :
    s.request.counter = s.counter ∧ s.request.mark = s.mark ∧ s.request.letters = s.letters ∧
      s.request.inbox = s.inbox ∧ s.request.handed = s.handed ∧
      s.request.listening = s.listening ∧ s.request.outgoing = s.outgoing := by
  unfold request
  split <;> simp

@[simp] theorem response_frame (text : Bytes) :
    (s.response text).counter = s.counter ∧ (s.response text).mark = s.mark ∧
      (s.response text).letters = s.letters ∧ (s.response text).inbox = s.inbox ∧
      (s.response text).handed = s.handed ∧ (s.response text).listening = s.listening ∧
      (s.response text).incoming = s.incoming ∧ (s.response text).listed = s.listed := by
  unfold response
  split <;> simp

@[simp] theorem hear_counter (l : Letter) : (s.hear l).counter = s.counter :=
  s.hear_cases l (·.counter = s.counter) (by simp [message]) (by simp) (by simp) (by simp)

@[simp] theorem hear_mark (l : Letter) : (s.hear l).mark = some l.counter :=
  s.hear_cases l (·.mark = some l.counter) (by simp [message]) (by simp) (by simp) (by simp)

@[simp] theorem hear_letters (l : Letter) : (s.hear l).letters = s.letters :=
  s.hear_cases l (·.letters = s.letters) (by simp [message]) (by simp) (by simp) (by simp)

@[simp] theorem hear_listening (l : Letter) : (s.hear l).listening = s.listening :=
  s.hear_cases l (·.listening = s.listening) (by simp [message]) (by simp) (by simp) (by simp)

theorem act_counter (a : Act) :
    (s.act a).counter = if a.sealed.isSome then s.counter + 1 else s.counter := by
  cases a with
  | deliver l =>
    simp only [act, Act.sealed]
    split <;> simp
  | _ => rfl

theorem act_letters (a : Act) : (s.act a).letters = s.letters ++ a.posted s.counter := by
  cases a with
  | deliver l =>
    simp only [act, Act.posted, Act.sealed]
    split <;> simp
  | ask _ leaves => cases leaves <;> simp [act, post, Act.posted, Act.sealed]
  | answer _ leaves => cases leaves <;> simp [act, post, Act.posted, Act.sealed]
  | tell _ leaves => cases leaves <;> simp [act, post, Act.posted, Act.sealed]
  | _ => simp [act, Act.posted, Act.sealed]

theorem act_inbox (a : Act) : (s.act a).inbox = s.inbox ++ s.heard a := by
  cases a with
  | deliver l =>
    by_cases ht : s.Takes l
    · rw [act, if_pos ht, heard]
      apply s.hear_cases l (·.inbox = _)
      · intro h
        simp [message, ht, h]
      all_goals
        intros
        simp [*]
    · simp [act, heard, ht]
  | _ => simp [act, post, heard]

theorem act_handed (a : Act) :
    (s.act a).handed = s.handed ++ if s.listening then s.heard a else [] := by
  cases a with
  | deliver l =>
    by_cases ht : s.Takes l
    · rw [act, if_pos ht, heard]
      apply s.hear_cases l (·.handed = _)
      · intro h
        cases hl : s.listening <;> simp [message, ht, h]
      all_goals
        intros
        simp [*]
    · simp [act, heard, ht]
  | _ => simp [act, post, heard]

theorem act_mark_deliver (l : Letter) :
    (s.act (.deliver l)).mark = if s.Takes l then some l.counter else s.mark := by
  simp only [act]
  split <;> simp

theorem act_mark_grows {a : Act} {c : UInt64} (h : c ∈ s.mark) : ∃ c' ∈ (s.act a).mark, c ≤ c' := by
  cases a with
  | deliver l =>
    rw [act_mark_deliver]
    split
    · next ht => exact ⟨l.counter, rfl, UInt64.le_of_lt (ht.2 c h)⟩
    · exact ⟨c, h, UInt64.le_refl c⟩
  | _ => exact ⟨c, h, UInt64.le_refl c⟩

theorem heard_ne_nil {a : Act} (h : s.heard a ≠ []) :
    ∃ l, a = .deliver l ∧ s.Takes l ∧ l.type = .message ∧ s.heard a = [l.text] := by
  cases a with
  | deliver l =>
    rw [heard] at h ⊢
    split_ifs at h ⊢ with ht
    · exact ⟨l, rfl, ht.1, ht.2, rfl⟩
    · exact absurd rfl h
  | _ => exact absurd rfl h

end Side

end OpenMesh.Messaging.Sides
