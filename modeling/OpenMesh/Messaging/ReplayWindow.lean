import OpenMesh.Crypto.Reference
import OpenMesh.Library.Runs
import OpenMesh.Messaging.Pairs

namespace OpenMesh.Messaging.ReplayWindow

open OpenMesh.Core.Buffers OpenMesh.Crypto.Primitives OpenMesh.Crypto.Reference
open OpenMesh.Library.Runs OpenMesh.Protocol.Envelope OpenMesh.Protocol.EnvelopeCodec
open OpenMesh.Messaging.Sessions OpenMesh.Messaging.Projection OpenMesh.Messaging.Pairs

structure Link where
  a : Session
  b : Session

/-- A packet that an end has sealed, and what went into it. -/
structure Box where
  type : PacketType
  text : Bytes
  packet : Packet
  deriving DecidableEq

inductive Op where
  | encrypt (nonce : Nonce) (type : PacketType) (plaintext : Bytes)
  | reply (nonce : Nonce) (type : PacketType) (plaintext : Bytes)
  | decrypt (packet : Packet)

variable (C : Sodium)

def Link.step (l : Link) : Op → Link
  | .encrypt nonce type plaintext => { l with a := (l.a.encryptAs C nonce type plaintext).1 }
  | .reply nonce type plaintext => { l with b := (l.b.encryptAs C nonce type plaintext).1 }
  | .decrypt packet => match l.b.decrypt C packet with
    | some (_, b) => { l with b }
    | none => l

/-- What `a` has sealed, oldest first. -/
def sent : History Link Op → List Box
  | [] => []
  | (l, .encrypt nonce type text) :: h =>
    sent h ++ [⟨type, text, (l.a.encryptAs C nonce type text).2⟩]
  | (_, .reply _ _ _) :: h => sent h
  | (_, .decrypt _) :: h => sent h

def replied : History Link Op → List Box
  | [] => []
  | (l, .reply nonce type text) :: h =>
    replied h ++ [⟨type, text, (l.b.encryptAs C nonce type text).2⟩]
  | (_, .encrypt _ _ _) :: h => replied h
  | (_, .decrypt _) :: h => replied h

/-- What `b` has taken: the packets it opened, with the plaintext it returned. -/
def taken : History Link Op → List Box
  | [] => []
  | (l, .decrypt packet) :: h =>
    taken h ++ ((l.b.decrypt C packet).map fun p => ⟨packet.type, p.1, packet⟩).toList
  | (_, .encrypt _ _ _) :: h => taken h
  | (_, .reply _ _ _) :: h => taken h

/-- What has reached `b` of what `a` sealed, in order of arrival. -/
def arrived : History Link Op → List Box
  | [] => []
  | (_, .decrypt packet) :: h => arrived h ++ ((sent C h).find? (·.packet = packet)).toList
  | (_, .encrypt _ _ _) :: h => arrived h
  | (_, .reply _ _ _) :: h => arrived h

/-- An ideal AEAD: under the key of the two ends, nothing opens but what one of
them has sealed, and only with the same associated data. -/
def Ideal (h : History Link Op) (l : Link) : Op → Prop
  | .decrypt packet => ∀ text,
    aeadOpen C l.b.sharedKey packet.payload (associatedData packet) = some text →
      ∃ x ∈ sent C h ++ replied C h, x.packet.payload = packet.payload ∧
        associatedData x.packet = associatedData packet
  | _ => True

variable {C}

/-- The packet of a box was sealed by the session, under some counter. -/
def SealedBy (C : Sodium) (s : Session) (x : Box) : Prop :=
  ∃ nonce counter, x.packet = ({ s with sendCounter := counter }.encryptAs C nonce x.type x.text).2

theorem SealedBy.packet {s : Session} {x : Box} (hv : s.valid) (h : SealedBy C s x) :
    ∃ nonce counter, x.packet = { { s with sendCounter := counter }.header x.type with
      payload := aeadSeal C nonce s.sharedKey x.text
        (associatedData ({ s with sendCounter := counter }.header x.type)) } := by
  obtain ⟨nonce, counter, hx⟩ := h
  refine ⟨nonce, counter, ?_⟩
  rw [hx]
  exact Session.encryptAs_packet nonce (s := { s with sendCounter := counter }) hv x.type x.text

theorem SealedBy.opens {s : Session} {x : Box} (hv : s.valid)
    (hk : s.sharedKey.length = kSessionKeyBytes) (h : SealedBy C s x) :
    x.packet.type = x.type ∧ x.packet.encrypted ∧ x.packet.source = s.localPublic ∧
      x.packet.destination = s.remotePublic ∧
      aeadOpen C s.sharedKey x.packet.payload (associatedData x.packet) = some x.text := by
  obtain ⟨nonce, counter, hx⟩ := h.packet hv
  have henc : ∀ p : Packet, p.flags = kFlagEncrypted → p.encrypted := by
    intro p hp
    rw [Packet.encrypted, Packet.hasFlag, hp]
    decide
  rw [hx]
  refine ⟨rfl, henc _ rfl, rfl, rfl, ?_⟩
  rw [Session.associatedData_payload]
  exact aeadOpen_aeadSeal x.text _ hk

theorem SealedBy.fits {s : Session} {x : Box} (hv : s.valid)
    (hk : s.sharedKey.length = kSessionKeyBytes) (hl : s.localPublic.length ≤ 65535)
    (hr : s.remotePublic.length ≤ 65535)
    (ht : x.text.length + (kAeadNonceBytes + kAeadTagBytes) ≤ 65535) (h : SealedBy C s x) :
    deserialize (serialize x.packet) = some x.packet := by
  obtain ⟨nonce, counter, hx⟩ := h.packet hv
  apply deserialize_serialize
  rw [hx]
  refine ⟨rfl, hl, hr, ?_⟩
  change (aeadSeal C nonce s.sharedKey x.text _).length ≤ 65535
  rw [aeadSeal_length x.text _ hk]
  omega

structure SameKeys (s t : Session) : Prop where
  localPublic : s.localPublic = t.localPublic
  remotePublic : s.remotePublic = t.remotePublic
  sharedKey : s.sharedKey = t.sharedKey
  valid : s.valid = t.valid

theorem SameKeys.sealedBy {s t : Session} (h : SameKeys s t) (nonce : Nonce) (type : PacketType)
    (text : Bytes) : SealedBy C t ⟨type, text, (s.encryptAs C nonce type text).2⟩ := by
  refine ⟨nonce, s.sendCounter, ?_⟩
  simp only [Session.encryptAs, Session.header, h.localPublic, h.remotePublic, h.sharedKey, h.valid]
  split <;> rfl

theorem encryptAs_counter (s : Session) (nonce : Nonce) (type : PacketType) (text : Bytes) :
    (s.encryptAs C nonce type text).2.counter = s.sendCounter := by
  simp only [Session.encryptAs]
  split <;> rfl

structure Tracked (C : Sodium) (l₀ : Link) (h : History Link Op) (l : Link) : Prop where
  a : SameKeys l.a l₀.a
  b : SameKeys l.b l₀.b
  sendCounter : l.a.sendCounter = UInt64.ofNat (sent C h).length
  sent : ∀ x ∈ sent C h, SealedBy C l₀.a x
  replied : ∀ x ∈ replied C h, SealedBy C l₀.b x
  counters : (ReplayWindow.sent C h).map (·.packet.counter) =
    (List.range (ReplayWindow.sent C h).length).map UInt64.ofNat
  covered : ∀ x ∈ taken C h, l.b.haveReceived ∧ x.packet.counter ≤ l.b.lastReceived
  last : l.b.haveReceived → ∃ x ∈ taken C h, x.packet.counter = l.b.lastReceived

theorem Tracked.fresh {l₀ l : Link} {h : History Link Op} (tracked : Tracked C l₀ h l)
    (counter : UInt64) :
    l.b.Fresh counter ↔ ∀ x ∈ taken C h, x.packet.counter < counter := by
  constructor
  · intro hf x hx
    obtain ⟨hr, hle⟩ := tracked.covered x hx
    exact UInt64.lt_of_le_of_lt hle (hf hr)
  · intro hall hr
    obtain ⟨x, hx, hlast⟩ := tracked.last hr
    rw [← hlast]
    exact hall x hx

theorem tracked_start {l₀ : Link} (ha : l₀.a.sendCounter = 0) (hb : l₀.b.haveReceived = false) :
    Tracked C l₀ [] l₀ where
  a := ⟨rfl, rfl, rfl, rfl⟩
  b := ⟨rfl, rfl, rfl, rfl⟩
  sendCounter := ha
  sent := List.forall_mem_nil _
  replied := List.forall_mem_nil _
  counters := rfl
  covered := List.forall_mem_nil _
  last hr := by
    rw [hb] at hr
    cases hr

theorem tracked_step {l₀ l : Link} {h : History Link Op} (op : Op)
    (tracked : Tracked C l₀ h l) : Tracked C l₀ ((l, op) :: h) (l.step C op) := by
  have ha := tracked.a
  have hb := tracked.b
  cases op with
  | encrypt nonce type text =>
    refine ⟨?_, hb, ?_, ?_, tracked.replied, ?_, tracked.covered, tracked.last⟩
    · simp only [Link.step, Session.encryptAs_session]
      exact ⟨ha.localPublic, ha.remotePublic, ha.sharedKey, ha.valid⟩
    · simp only [Link.step, Session.encryptAs_session, sent, List.length_append,
        List.length_singleton, tracked.sendCounter, UInt64.ofNat_add]
      rfl
    · intro x hx
      obtain hx | hx := List.mem_append.mp hx
      · exact tracked.sent x hx
      · rw [List.mem_singleton.mp hx]
        exact ha.sealedBy nonce type text
    · simp only [sent, List.map_append, List.map_singleton, tracked.counters, encryptAs_counter,
        tracked.sendCounter, List.length_append, List.length_singleton, List.range_succ]
  | reply nonce type text =>
    refine ⟨ha, ?_, tracked.sendCounter, tracked.sent, ?_, tracked.counters, ?_, ?_⟩
    · simp only [Link.step, Session.encryptAs_session]
      exact ⟨hb.localPublic, hb.remotePublic, hb.sharedKey, hb.valid⟩
    · intro x hx
      obtain hx | hx := List.mem_append.mp hx
      · exact tracked.replied x hx
      · rw [List.mem_singleton.mp hx]
        exact hb.sealedBy nonce type text
    · simp only [Link.step, Session.encryptAs_session]
      exact tracked.covered
    · simp only [Link.step, Session.encryptAs_session]
      exact tracked.last
  | decrypt packet =>
    cases hd : l.b.decrypt C packet with
    | none =>
      have hstep : l.step C (.decrypt packet) = l := by simp only [Link.step, hd]
      have htaken : taken C ((l, .decrypt packet) :: h) = taken C h := by simp [taken, hd]
      rw [hstep]
      refine ⟨ha, hb, tracked.sendCounter, tracked.sent, tracked.replied, tracked.counters, ?_, ?_⟩
      · rw [htaken]
        exact tracked.covered
      · rw [htaken]
        exact tracked.last
    | some p =>
      obtain ⟨text, b⟩ := p
      obtain ⟨hopen, rfl⟩ := Session.decrypt_eq_some_iff.mp hd
      have hfresh := (tracked.fresh packet.counter).mp hopen.2.2.2.2.1
      have htaken : taken C ((l, .decrypt packet) :: h) =
          taken C h ++ [⟨packet.type, text, packet⟩] := by simp [taken, hd]
      have hstep : l.step C (.decrypt packet) =
          { l with b := { l.b with haveReceived := true, lastReceived := packet.counter } } := by
        simp only [Link.step, hd]
      rw [hstep]
      refine ⟨ha, ⟨hb.localPublic, hb.remotePublic, hb.sharedKey, hb.valid⟩, tracked.sendCounter,
        tracked.sent, tracked.replied, tracked.counters, ?_, ?_⟩
      · rw [htaken]
        intro x hx
        obtain hx | hx := List.mem_append.mp hx
        · exact ⟨rfl, UInt64.le_of_lt (hfresh x hx)⟩
        · rw [List.mem_singleton.mp hx]
          exact ⟨rfl, UInt64.le_refl _⟩
      · rw [htaken]
        exact fun _ => ⟨_, List.mem_append_right _ (List.mem_singleton_self _), rfl⟩

structure Ends (C : Sodium) (l₀ : Link) : Prop where
  validA : l₀.a.valid
  validB : l₀.b.valid
  remoteA : l₀.a.remotePublic = l₀.b.localPublic
  remoteB : l₀.b.remotePublic = l₀.a.localPublic
  sharedKey : l₀.a.sharedKey = l₀.b.sharedKey
  key_length : l₀.b.sharedKey.length = kSessionKeyBytes
  lengthA : l₀.a.localPublic.length ≤ 65535
  lengthB : l₀.b.localPublic.length ≤ 65535
  unsent : l₀.a.sendCounter = 0
  unheard : l₀.b.haveReceived = false

/-- What `b` may take for a packet of `a`: to an end that talks to itself, its own
packets look the same. -/
def Passes (C : Sodium) (l₀ : Link) (h : History Link Op) (x : Box) : Prop :=
  x ∈ sent C h ∨ l₀.a.localPublic = l₀.b.localPublic ∧ x ∈ replied C h

variable {l₀ l : Link} {h : History Link Op}

theorem Ends.opens (ends : Ends C l₀) (tracked : Tracked C l₀ h l) {x : Box}
    (hx : Passes C l₀ h x) : x.packet.type = x.type ∧ x.packet.encrypted ∧
      x.packet.source = l₀.a.localPublic ∧ x.packet.destination = l₀.b.localPublic ∧
      aeadOpen C l₀.b.sharedKey x.packet.payload (associatedData x.packet) = some x.text := by
  obtain hx | ⟨hself, hx⟩ := hx
  · have hk : l₀.a.sharedKey.length = kSessionKeyBytes := by rw [ends.sharedKey, ends.key_length]
    have hopens := (tracked.sent x hx).opens ends.validA hk
    rwa [ends.sharedKey, ends.remoteA] at hopens
  · obtain ⟨hty, henc, hs, hdest, hopen⟩ :=
      (tracked.replied x hx).opens ends.validB ends.key_length
    exact ⟨hty, henc, hs.trans hself.symm, (hdest.trans ends.remoteB).trans hself, hopen⟩

/-- `b` opens what `a` has sealed, as long as the counters grow, and nothing else. -/
theorem decrypt_iff (ends : Ends C l₀) (tracked : Tracked C l₀ h l) {packet : Packet}
    (ideal : Ideal C h l (.decrypt packet)) (text : Bytes) :
    (∃ b, l.b.decrypt C packet = some (text, b)) ↔
      (∃ x, Passes C l₀ h x ∧ x.packet = packet ∧ x.text = text ∧ x.type = packet.type) ∧
        ∀ y ∈ taken C h, y.packet.counter < packet.counter := by
  have hb := tracked.b
  rw [← tracked.fresh]
  constructor
  · rintro ⟨b, hd⟩
    obtain ⟨⟨hv, henc, hs, hdest, hf, hopen⟩, -⟩ := Session.decrypt_eq_some_iff.mp hd
    rw [hb.remotePublic, ends.remoteB] at hs
    rw [hb.localPublic] at hdest
    obtain ⟨x, hx, hpayload, had⟩ := ideal text hopen
    have hsource : x.packet.source.length ≤ 65535 ∧ x.packet.destination.length ≤ 65535 := by
      obtain hx | hx := List.mem_append.mp hx
      · have hopens := ends.opens tracked (.inl hx)
        rw [hopens.2.2.1, hopens.2.2.2.1]
        exact ⟨ends.lengthA, ends.lengthB⟩
      · have hopens := (tracked.replied x hx).opens ends.validB ends.key_length
        rw [hopens.2.2.1, hopens.2.2.2.1, ends.remoteB]
        exact ⟨ends.lengthB, ends.lengthA⟩
    have had' : associatedData x.packet ++ [] = associatedData packet ++ [] := by rw [had]
    obtain ⟨⟨hver, hty, hflags, hcounter, hsrc, hdst⟩, -⟩ := associatedData_append_inj hsource.1
      hsource.2 (hs ▸ ends.lengthA) (hdest ▸ ends.lengthB) had'
    have hpacket : x.packet = packet := by
      ext1 <;> assumption
    have hpasses : Passes C l₀ h x := by
      obtain hx | hx := List.mem_append.mp hx
      · exact .inl hx
      · have hopens := (tracked.replied x hx).opens ends.validB ends.key_length
        refine .inr ⟨?_, hx⟩
        rw [← hs, ← hsrc, hopens.2.2.1]
    have hopens := ends.opens tracked hpasses
    refine ⟨⟨x, hpasses, hpacket, ?_, ?_⟩, hf⟩
    · have htext := hopens.2.2.2.2
      rw [hpacket, ← hb.sharedKey, hopen] at htext
      exact (Option.some.inj htext).symm
    · rw [← hopens.1, hpacket]
  · rintro ⟨⟨x, hpasses, rfl, rfl, -⟩, hf⟩
    obtain ⟨-, henc, hs, hdest, hopen⟩ := ends.opens tracked hpasses
    refine ⟨_, Session.decrypt_eq_some_iff.mpr ⟨⟨?_, henc, ?_, ?_, hf, ?_⟩, rfl⟩⟩
    · rw [hb.valid, ends.validB]
    · rw [hs, hb.remotePublic, ends.remoteB]
    · rw [hdest, hb.localPublic]
    · rw [hb.sharedKey, hopen]

theorem taken_arrived (ends : Ends C l₀) (hother : l₀.a.localPublic ≠ l₀.b.localPublic)
    (run : Run (Link.step C) (Ideal C) l₀ h l)
    (hgrow : (arrived C h).Pairwise fun x y => x.packet.counter < y.packet.counter) :
    taken C h = arrived C h := by
  induction run with
  | start => rfl
  | @move h l op run ideal ih =>
    have tracked : Tracked C l₀ h l := run.invariant (Tracked C l₀)
      (tracked_start ends.unsent ends.unheard) fun _ _ op _ tracked _ => tracked_step op tracked
    cases op with
    | encrypt nonce type text => exact ih hgrow
    | reply nonce type text => exact ih hgrow
    | decrypt packet =>
      obtain ⟨hold, -, hnew⟩ := List.pairwise_append.mp hgrow
      have htaken := ih hold
      have hiff := decrypt_iff ends tracked ideal
      cases hfind : (sent C h).find? (·.packet = packet) with
      | none =>
        have hd : l.b.decrypt C packet = none := by
          by_contra hne
          obtain ⟨⟨text, b⟩, hd⟩ := Option.ne_none_iff_exists'.mp hne
          obtain ⟨⟨x, hpasses, hx, -⟩, -⟩ := (hiff text).mp ⟨b, hd⟩
          obtain hmem | ⟨hself, -⟩ := hpasses
          · have := List.find?_eq_none.mp hfind x hmem
            simp [hx] at this
          · exact hother hself
        simp [taken, arrived, hd, hfind, htaken]
      | some x =>
        have hx : x.packet = packet := by simpa using List.find?_some hfind
        have hmem : x ∈ sent C h := List.mem_of_find?_eq_some hfind
        have hty := (ends.opens tracked (.inl hmem)).1
        obtain ⟨b, hd⟩ := (hiff x.text).mpr ⟨⟨x, .inl hmem, hx, rfl, by rw [← hty, hx]⟩, by
          intro y hy
          rw [htaken] at hy
          rw [← hx]
          exact hnew y hy x (by simp [hfind])⟩
        simp only [taken, arrived, hd, hfind, htaken, Option.map_some, Option.toList_some]
        rw [← hx, hty]

theorem sent_grows (tracked : Tracked C l₀ h l) (hcount : (sent C h).length < 2 ^ 64) :
    (sent C h).Pairwise fun x y => x.packet.counter < y.packet.counter := by
  rw [← List.pairwise_map (f := fun x : Box => x.packet.counter) (R := (· < ·)), tracked.counters,
    List.pairwise_map]
  apply List.Pairwise.imp_of_mem _ List.pairwise_lt_range
  intro i j hi hj hij
  have hi' := List.mem_range.mp hi
  have hj' := List.mem_range.mp hj
  rw [UInt64.lt_iff_toNat_lt, UInt64.toNat_ofNat_of_lt' (hi'.trans hcount),
    UInt64.toNat_ofNat_of_lt' (hj'.trans hcount)]
  exact hij

theorem new_unused (localPublic localSecret remotePublic : Bytes) :
    (Session.new C localPublic localSecret remotePublic).sendCounter = 0 ∧
      (Session.new C localPublic localSecret remotePublic).haveReceived = false := by
  unfold Session.new
  split <;> exact ⟨rfl, rfl⟩

def agreed (C : Sodium) (aPublic aSecret bPublic bSecret : Bytes) : Link :=
  ⟨.new C aPublic aSecret bPublic, .new C bPublic bSecret aPublic⟩

theorem ends_agreed {aPublic aSecret bPublic bSecret : Bytes}
    (hA : (agreed C aPublic aSecret bPublic bSecret).a.valid)
    (hB : (agreed C aPublic aSecret bPublic bSecret).b.valid)
    (hkey : (agreed C aPublic aSecret bPublic bSecret).a.sharedKey =
      (agreed C aPublic aSecret bPublic bSecret).b.sharedKey) :
    Ends C (agreed C aPublic aSecret bPublic bSecret) ∧ aPublic =
      (agreed C aPublic aSecret bPublic bSecret).a.localPublic ∧ bPublic =
      (agreed C aPublic aSecret bPublic bSecret).b.localPublic := by
  obtain ⟨hka, hla, hra⟩ := new_valid hA
  obtain ⟨hkb, hlb, hrb⟩ := new_valid hB
  have hlen : ∀ key : Bytes, key.length = kPublicKeyBytes → key.length ≤ 65535 := by
    intro key hl
    rw [hl]
    decide
  refine ⟨⟨hA, hB, hra.trans hlb.symm, hrb.trans hla.symm, hkey, (agreeSharedKey_length hkb).2,
    ?_, ?_, (new_unused _ _ _).1, (new_unused _ _ _).2⟩, hla.symm, hlb.symm⟩
  · exact le_of_eq_of_le (congrArg List.length hla) (hlen aPublic (agreeSharedKey_length hkb).1)
  · exact le_of_eq_of_le (congrArg List.length hlb) (hlen bPublic (agreeSharedKey_length hka).1)

/-- `b` takes exactly the packets of `a` whose counter is above all it has taken before, with the
text and the type that `a` gave them: all of them when they come in order. What else
it is given, its own packets included if the two ends are not the same, leaves no trace. -/
theorem replay_window {aPublic aSecret bPublic bSecret : Bytes}
    (hA : (agreed C aPublic aSecret bPublic bSecret).a.valid)
    (hB : (agreed C aPublic aSecret bPublic bSecret).b.valid)
    (hkey : (agreed C aPublic aSecret bPublic bSecret).a.sharedKey =
      (agreed C aPublic aSecret bPublic bSecret).b.sharedKey)
    (run : Run (Link.step C) (Ideal C) (agreed C aPublic aSecret bPublic bSecret) h l)
    (hcount : (sent C h).length < 2 ^ 64)
    (hsmall : ∀ x ∈ sent C h, x.text.length + (kAeadNonceBytes + kAeadTagBytes) ≤ 65535) :
    (∀ x ∈ sent C h, deserialize (serialize x.packet) = some x.packet) ∧
    (∀ packet, Ideal C h l (.decrypt packet) → ∀ text,
      (∃ b, l.b.decrypt C packet = some (text, b)) ↔
        (∃ x, (x ∈ sent C h ∨ aPublic = bPublic ∧ x ∈ replied C h) ∧ x.packet = packet ∧
          x.text = text ∧ x.type = packet.type) ∧
          ∀ y ∈ taken C h, y.packet.counter < packet.counter) ∧
    (aPublic ≠ bPublic → (arrived C h).Sublist (sent C h) → taken C h = arrived C h) ∧
    ∀ packet, l.b.decrypt C packet = none → l.step C (.decrypt packet) = l := by
  obtain ⟨ends, ha, hb⟩ := ends_agreed hA hB hkey
  have tracked := run.invariant (Tracked C _) (tracked_start ends.unsent ends.unheard)
    fun _ _ op _ tracked _ => tracked_step op tracked
  have hk : (agreed C aPublic aSecret bPublic bSecret).a.sharedKey.length = kSessionKeyBytes := by
    rw [ends.sharedKey, ends.key_length]
  refine ⟨?_, ?_, ?_, ?_⟩
  · intro x hx
    exact (tracked.sent x hx).fits ends.validA hk ends.lengthA (ends.remoteA ▸ ends.lengthB)
      (hsmall x hx)
  · intro packet ideal text
    have hiff := decrypt_iff ends tracked ideal text
    simp only [Passes, ← ha, ← hb] at hiff
    exact hiff
  · intro hne hsub
    have hother : (agreed C aPublic aSecret bPublic bSecret).a.localPublic ≠
        (agreed C aPublic aSecret bPublic bSecret).b.localPublic := by rwa [← ha, ← hb]
    exact taken_arrived ends hother run ((sent_grows tracked hcount).sublist hsub)
  · intro packet hd
    simp only [Link.step, hd]

def Genuine (C : Sodium) (h : History Link Op) (l : Link) : Op → Prop
  | .decrypt packet => packet ∈ (sent C h).map (·.packet) ∨
      aeadOpen C l.b.sharedKey packet.payload (associatedData packet) = none
  | _ => True

instance (h : History Link Op) (l : Link) : ∀ op, Decidable (Genuine C h l op)
  | .encrypt _ _ _ => inferInstanceAs (Decidable True)
  | .reply _ _ _ => inferInstanceAs (Decidable True)
  | .decrypt _ => inferInstanceAs (Decidable (_ ∨ _))

theorem ideal_of_genuine {op : Op} (hg : Genuine C h l op) : Ideal C h l op := by
  cases op with
  | encrypt nonce type text => trivial
  | reply nonce type text => trivial
  | decrypt packet =>
    intro text hopen
    obtain hmem | hnone := hg
    · obtain ⟨x, hx, rfl⟩ := List.mem_map.mp hmem
      exact ⟨x, List.mem_append_left _ hx, rfl, rfl⟩
    · rw [hopen] at hnone
      cases hnone

def acquainted : Link :=
  agreed reference (twoParties.key .A) (twoParties.identity .A).secretKey (twoParties.key .B)
    (twoParties.identity .B).secretKey

def letters : List Op :=
  [[1], [2], [3], [4]].map fun text => .encrypt clock.nonce .message text

def course (script : List Op) : History Link Op × Link :=
  Run.replay (Link.step reference) [] acquainted (letters ++ script)

def letter (k : Nat) : Packet :=
  ((sent reference (course []).1).map (·.packet)).getD k {}

def forged : Packet := { letter 3 with counter := 9 }

/-- The second letter comes twice, the first one late, the third is lost, and a forged one comes
in between. -/
def jumbled : List Op :=
  [.decrypt (letter 1), .decrypt forged, .reply clock.nonce .message [5], .decrypt (letter 1),
    .decrypt (letter 0)]

def thinned : List Op := [.decrypt (letter 0), .decrypt (letter 2)]

theorem course_run (script : List Op)
    (h : Run.Lawful (Link.step reference) (Genuine reference) [] acquainted (letters ++ script)) :
    Run (Link.step reference) (Ideal reference) acquainted (course script).1 (course script).2 :=
  (Run.replay_run .start h).mono fun _ _ _ => ideal_of_genuine

theorem replay_window_jumbled :
    (∃ b, (course jumbled).2.b.decrypt reference (letter 3) = some ([4], b)) ∧
    (∀ packet ∈ [letter 0, letter 1, forged],
      (course jumbled).2.b.decrypt reference packet = none) ∧
    taken reference (course thinned).1 = arrived reference (course thinned).1 := by
  have hA : acquainted.a.valid := by decide +kernel
  have hB : acquainted.b.valid := by decide +kernel
  have hkey : acquainted.a.sharedKey = acquainted.b.sharedKey := by decide +kernel
  obtain ⟨-, hiff, -, -⟩ := replay_window hA hB hkey
    (course_run jumbled (by decide +kernel)) (by decide +kernel) (by decide +kernel)
  obtain ⟨-, -, hsame, -⟩ := replay_window hA hB hkey
    (course_run thinned (by decide +kernel)) (by decide +kernel) (by decide +kernel)
  refine ⟨(hiff (letter 3) (ideal_of_genuine (by decide +kernel)) [4]).mpr ?_, ?_,
    hsame (by decide) (by decide +kernel)⟩
  · exact ⟨⟨⟨.message, [4], letter 3⟩, .inl (by decide +kernel), rfl, rfl, by decide +kernel⟩,
      by decide +kernel⟩
  · intro packet hp
    have hg : Genuine reference (course jumbled).1 (course jumbled).2 (.decrypt packet) := by
      revert packet
      decide +kernel
    have hold : packet = forged ∨ ∃ y ∈ taken reference (course jumbled).1,
        ¬ y.packet.counter < packet.counter := by
      revert packet
      decide +kernel
    by_contra hne
    obtain ⟨⟨text, b⟩, hd⟩ := Option.ne_none_iff_exists'.mp hne
    obtain ⟨⟨x, hx, hpacket, -⟩, hall⟩ := (hiff packet (ideal_of_genuine hg) text).mp ⟨b, hd⟩
    obtain rfl | ⟨y, hy, hle⟩ := hold
    · obtain hx | ⟨hself, -⟩ := hx
      · have hnot : ∀ x ∈ sent reference (course jumbled).1, x.packet ≠ forged := by
          decide +kernel
        exact hnot x hx hpacket
      · exact absurd hself (by decide)
    · exact hle (hall y hy)

def alone : Link :=
  agreed reference (twoParties.key .A) (twoParties.identity .A).secretKey (twoParties.key .A)
    (twoParties.identity .A).secretKey

/-- An end that talks to itself takes its own packet for one of the other end, which has sealed
nothing. -/
theorem reflected_taken :
    (alone.a.valid ∧ alone.b.valid ∧ alone.a.sharedKey = alone.b.sharedKey) ∧
    Run (Link.step reference) (Ideal reference) alone
      [(alone, .reply clock.nonce .message [7])]
      (alone.step reference (.reply clock.nonce .message [7])) ∧
    Ideal reference [(alone, .reply clock.nonce .message [7])]
      (alone.step reference (.reply clock.nonce .message [7]))
      (.decrypt (alone.b.encryptAs reference clock.nonce .message [7]).2) ∧
    sent reference [(alone, .reply clock.nonce .message [7])] = [] ∧
    ((alone.step reference (.reply clock.nonce .message [7])).b.decrypt reference
      (alone.b.encryptAs reference clock.nonce .message [7]).2).isSome := by
  refine ⟨by decide +kernel, .move .start trivial, ?_, rfl, by decide +kernel⟩
  exact fun _ _ => ⟨⟨.message, [7], _⟩, by simp [replied], rfl, rfl⟩

end OpenMesh.Messaging.ReplayWindow
