import OpenMesh.Protocol.EnvelopeCodec
import OpenMesh.Storage.Database

namespace OpenMesh.Storage.DatabaseCodec

open OpenMesh.Core.Buffers OpenMesh.Library.Wire OpenMesh.Protocol.EnvelopeCodec
open OpenMesh.Storage.Blob OpenMesh.Storage.Database

def left (b rest : Bytes) : Reader := ⟨b, b.length - rest.length⟩

/-- A reader with a cursor reads the words of a format, up to how it presents them. -/
def Reads {α β : Type} (p : Reader → Except Stop (β × Reader)) (c : Codec α) (f : α → β) : Prop :=
  ∀ b rest, rest <:+ b → p (left b rest) = match c.get rest with
    | some (a, rest') => .ok (f a, left b rest')
    | none => .error .refused

variable {α β γ δ : Type} {b rest : Bytes}

theorem drop_left (hs : rest <:+ b) : b.drop (left b rest).off = rest :=
  (List.suffix_iff_eq_drop.mp hs).symm

theorem left_off (hs : rest <:+ b) : (left b rest).off + rest.length = b.length :=
  Nat.sub_add_cancel hs.length_le

theorem suffix_of_get {c : Codec α} {a : α} {rest' : Bytes} (hs : rest <:+ b)
    (h : c.get rest = some (a, rest')) : rest' <:+ b := by
  obtain ⟨-, rfl⟩ := c.put_get _ _ _ h
  exact (List.suffix_append _ _).trans hs

theorem reads_u8 : Reads Reader.u8 Codec.byte id := by
  intro b rest hs
  have hoff := left_off hs
  cases rest with
  | nil =>
    have hlt : (left b []).off + 1 > (left b []).b.length := by
      simp only [List.length_nil] at hoff
      simp only [left] at hoff ⊢
      omega
    simp only [Reader.u8, if_pos hlt]
    rfl
  | cons v rest =>
    have hlt : ¬ (left b (v :: rest)).off + 1 > (left b (v :: rest)).b.length := by
      simp only [List.length_cons] at hoff
      simp only [left] at hoff ⊢
      omega
    have hnext : (left b (v :: rest)).off + 1 = (left b rest).off := by
      simp only [left, List.length_cons] at hoff ⊢
      omega
    simp only [Reader.u8, if_neg hlt]
    rw [show (left b (v :: rest)).b = b from rfl, byteAt_eq (drop_left hs), hnext]
    rfl

theorem Reads.andThen {p : Reader → Except Stop (β × Reader)} {c : Codec α} {f : α → β}
    (hp : Reads p c f) (q : β → Reader → Except Stop (δ × Reader)) {d : Codec γ}
    {g : α → γ → δ} (hq : ∀ a, Reads (q (f a)) d (g a)) :
    Reads (fun r => p r >>= fun x => q x.1 x.2) (c.pair d) (fun a => g a.1 a.2) := by
  intro b rest hs
  simp only [hp b rest hs, Codec.pair]
  cases hc : c.get rest with
  | none => rfl
  | some x =>
    obtain ⟨a, rest'⟩ := x
    change q (f a) (left b rest') = _
    rw [hq a b rest' (suffix_of_get hs hc)]
    simp only [Option.bind_some]
    cases d.get rest' <;> rfl

theorem Reads.bind {p : Reader → Except Stop (α × Reader)} {c : Codec α} (hp : Reads p c id)
    {q : α → Reader → Except Stop (δ × Reader)} {d : Codec γ} {g : α → γ → δ}
    (hq : ∀ a, Reads (q a) d (g a)) :
    Reads (fun r => p r >>= fun x => q x.1 x.2) (c.pair d) (fun a => g a.1 a.2) :=
  hp.andThen q hq

theorem Reads.map {p : Reader → Except Stop (β × Reader)} {c : Codec α} {f : α → β}
    (hp : Reads p c f) (k : β → δ) :
    Reads (fun r => p r >>= fun x => pure (k x.1, x.2)) c (fun a => k (f a)) := by
  intro b rest hs
  simp only [hp b rest hs]
  cases c.get rest <;> rfl

theorem reads_u16 : Reads Reader.u16 Codec.u16 id := by
  intro b rest hs
  have hoff := left_off hs
  have hget : Codec.u16.get rest = if 2 ≤ rest.length then
      some (UInt16.ofNat (ofBigEndian (rest.take 2)), rest.drop 2) else none := by
    simp only [Codec.u16, Codec.iso, Codec.nat]
    split <;> rfl
  rw [hget]
  by_cases h : 2 ≤ rest.length
  · obtain ⟨hi, lo, rest', rfl⟩ : ∃ hi lo rest', rest = hi :: lo :: rest' := by
      obtain _ | ⟨hi, _ | ⟨lo, rest'⟩⟩ := rest
      · cases h
      · cases Nat.le_of_succ_le_succ h
      · exact ⟨hi, lo, rest', rfl⟩
    have hlt : ¬ (left b (hi :: lo :: rest')).off + 2 > b.length := by omega
    have hdrop : b.drop ((left b (hi :: lo :: rest')).off + 1) = lo :: rest' := by
      rw [← List.drop_drop, drop_left hs, List.drop_succ_cons, List.drop_zero]
    have hnext : (left b (hi :: lo :: rest')).off + 2 = (left b rest').off := by
      simp only [left, List.length_cons] at hoff ⊢
      omega
    have hvalue : (hi.toUInt16 <<< 8) ||| lo.toUInt16 = UInt16.ofNat (ofBigEndian [hi, lo]) := by
      rw [← getU16_value, UInt16.ofNat_toNat]
    have hread : Reader.u16 (left b (hi :: lo :: rest')) =
        .ok ((hi.toUInt16 <<< 8) ||| lo.toUInt16, left b rest') := by
      simp only [Reader.u16, show (left b (hi :: lo :: rest')).b = b from rfl, if_neg hlt,
        byteAt_eq (drop_left hs), byteAt_eq hdrop]
      rw [hnext]
      rfl
    rw [if_pos h, hread, hvalue]
    rfl
  · have hlt : (left b rest).off + 2 > b.length := by omega
    rw [if_neg h]
    simp only [Reader.u16, show (left b rest).b = b from rfl, if_pos hlt]
    rfl

theorem reads_bytes : Reads Reader.bytes Codec.field id := by
  intro b rest hs
  have hfield : Codec.field.get rest = (Codec.u16.get rest).bind fun p =>
      if p.1.toNat ≤ p.2.length then some (p.2.take p.1.toNat, p.2.drop p.1.toNat) else none := by
    simp only [Codec.field, Codec.u16, Codec.iso]
    cases hn : (Codec.nat 2).get rest with
    | none => rfl
    | some x =>
      obtain ⟨n, xs⟩ := x
      have hlt : n < 256 ^ 2 := ((Codec.nat 2).put_get _ _ _ hn).1
      have hnat : (UInt16.ofNat n).toNat = n := UInt16.toNat_ofNat_of_lt' hlt
      simp only [Option.bind_some, Option.map_some, hnat]
  rw [hfield]
  unfold Reader.bytes
  rw [reads_u16 b rest hs]
  cases hget : Codec.u16.get rest with
  | none => rfl
  | some x =>
    obtain ⟨n, rest'⟩ := x
    have hs' := suffix_of_get hs hget
    have hoff := left_off hs'
    by_cases h : n.toNat ≤ rest'.length
    · have hlt : ¬ (left b rest').off + n.toNat > b.length := by omega
      have hnext : (left b rest').off + n.toNat = (left b (rest'.drop n.toNat)).off := by
        simp only [left, List.length_drop] at hoff ⊢
        omega
      have hslice : slice b (left b rest').off ((left b rest').off + n.toNat) =
          .ok (rest'.take n.toNat) := by
        rw [slice, if_pos (by omega), List.drop_take, drop_left hs', Nat.add_sub_cancel_left]
      simp only [Option.bind_some, if_pos h]
      simp only [bind, Except.bind, id, show (left b rest').b = b from rfl, if_neg hlt, hslice]
      rw [hnext]
      rfl
    · have hlt : (left b rest').off + n.toNat > b.length := by omega
      simp only [Option.bind_some, if_neg h]
      simp only [bind, Except.bind, id, show (left b rest').b = b from rfl, if_pos hlt]
      rfl

theorem reads_word (w : ℕ) (shift : α → UInt8 → α) (zero : α)
    {p : Reader → Except Stop (α × Reader)}
    (hp : ∀ r, p r = if r.off + w > r.b.length then .error .refused else do
      let v ← (List.range w).foldlM (fun v i => do
        let b ← byteAt r.b (r.off + i)
        return shift v b) zero
      return (v, { r with off := r.off + w }))
    {c : Codec α} (hc : ∀ rest, c.get rest =
      if w ≤ rest.length then some ((rest.take w).foldl shift zero, rest.drop w) else none) :
    Reads p c id := by
  intro b rest hs
  have hoff := left_off hs
  rw [hp, hc]
  by_cases h : w ≤ rest.length
  · have hlt : ¬ (left b rest).off + w > b.length := by omega
    have hnext : (left b rest).off + w = (left b (rest.drop w)).off := by
      simp only [left, List.length_drop] at hoff ⊢
      omega
    rw [if_pos h]
    simp only [show (left b rest).b = b from rfl, if_neg hlt]
    rw [foldlM_byteAt b _ shift w zero (by omega), drop_left hs, hnext]
    rfl
  · have hlt : (left b rest).off + w > b.length := by omega
    rw [if_neg h]
    simp only [show (left b rest).b = b from rfl, if_pos hlt]


theorem shiftIn32_toNat {value : UInt32} (b : UInt8) (h : value.toNat * 256 < 256 ^ 4) :
    ((value <<< 8) ||| b.toUInt32).toNat = value.toNat * 256 + b.toNat := by
  have hb := b.toNat_lt
  have hor := Nat.shiftLeft_add_eq_or_of_lt (i := 8) hb value.toNat
  have h8 : (8 : UInt32).toNat % 32 = 8 := rfl
  simp only [UInt32.toNat_or, UInt32.toNat_shiftLeft, UInt8.toNat_toUInt32, h8]
  norm_num [Nat.shiftLeft_eq] at h hor ⊢
  rw [Nat.mod_eq_of_lt (by omega), ← hor]

theorem reads_u32 : Reads Reader.u32 Codec.u32 id := by
  refine reads_word 4 (fun (v : UInt32) b => (v <<< 8) ||| b.toUInt32) 0 ?_ ?_
  · intro r
    unfold Reader.u32
    split <;> rfl
  · intro rest
    simp only [Codec.u32, Codec.iso, Codec.nat]
    by_cases h : 4 ≤ rest.length
    · have hvalue := foldl_shift UInt32.toNat (fun (v : UInt32) b => (v <<< 8) ||| b.toUInt32) 4
        (fun _ b hv => shiftIn32_toNat b hv) (rest.take 4) 0 0 (by simp [h]) (by simp)
      simp only [UInt32.toNat_zero, zero_mul, zero_add] at hvalue
      simp only [if_pos h, Option.map_some, ← hvalue, UInt32.ofNat_toNat]
    · simp only [if_neg h, Option.map_none]

theorem reads_u64 : Reads Reader.u64 Codec.u64 id := by
  refine reads_word 8 shiftIn 0 ?_ ?_
  · intro r
    unfold Reader.u64
    split <;> rfl
  · intro rest
    simp only [Codec.u64, Codec.iso, Codec.nat]
    by_cases h : 8 ≤ rest.length
    · have hvalue := foldl_shiftIn (rest.take 8) 0 0 (by simp [h]) (by simp)
      simp only [UInt64.toNat_zero, zero_mul, zero_add] at hvalue
      simp only [if_pos h, Option.map_some, ← hvalue, UInt64.ofNat_toNat]
    · simp only [if_neg h, Option.map_none]

theorem many_eq {p : Reader → Except Stop (β × Reader)} {c : Codec α} {f : α → β}
    (hp : Reads p c f) (n : ℕ) {b rest : Bytes} (hs : rest <:+ b) :
    Reader.many p n (left b rest) = match c.getMany n rest with
      | some (as, rest') => .ok (as.map f, left b rest')
      | none => .error .refused := by
  induction n generalizing rest with
  | zero => rfl
  | succ n ih =>
    simp only [Reader.many, hp b rest hs, Codec.getMany]
    cases hc : c.get rest with
    | none => rfl
    | some x =>
      obtain ⟨a, rest'⟩ := x
      simp only [Option.bind_some]
      simp only [bind, Except.bind, ih (suffix_of_get hs hc)]
      cases c.getMany n rest' <;> rfl

def listOf (p : Reader → Except Stop (β × Reader)) (r : Reader) : Except Stop (List β × Reader) :=
  r.u32 >>= fun x => Reader.many p x.1.toNat x.2

theorem reads_listOf {p : Reader → Except Stop (β × Reader)} {c : Codec α} {f : α → β}
    (hp : Reads p c f) : Reads (listOf p) (Codec.counted 4 c) (List.map f) := by
  intro b rest hs
  have hget : (Codec.counted 4 c).get rest =
      (Codec.u32.get rest).bind fun x => c.getMany x.1.toNat x.2 := by
    simp only [Codec.counted, Codec.u32, Codec.iso]
    cases hn : (Codec.nat 4).get rest with
    | none => rfl
    | some x =>
      obtain ⟨n, xs⟩ := x
      have hlt : n < 256 ^ 4 := ((Codec.nat 4).put_get _ _ _ hn).1
      have hnat : (UInt32.ofNat n).toNat = n := UInt32.toNat_ofNat_of_lt' hlt
      simp only [Option.bind_some, Option.map_some, hnat]
  simp only [listOf, reads_u32 b rest hs, hget]
  cases hn : Codec.u32.get rest with
  | none => rfl
  | some x =>
    obtain ⟨n, rest'⟩ := x
    change Reader.many p n.toNat (left b rest') = _
    rw [many_eq hp n.toNat (suffix_of_get hs hn)]
    dsimp only [Option.bind_some]
    cases c.getMany n.toNat rest' <;> rfl

def contactFields : Codec (Bytes × Bytes × UInt8 × UInt64) :=
  Codec.field.pair (Codec.field.pair (Codec.byte.pair Codec.u64))

def requestFields : Codec (Bytes × Bytes × UInt64) :=
  Codec.field.pair (Codec.field.pair Codec.u64)

def toContact (x : Bytes × Bytes × UInt8 × UInt64) : Contact :=
  ⟨x.1, x.2.1, .ofByte x.2.2.1, x.2.2.2.toInt64⟩

/-- Any byte but zero marks a message as sent. -/
def toMessage (x : Bytes × Bytes × UInt8 × UInt64) : Message :=
  ⟨x.1, x.2.1, x.2.2.1 ≠ 0, x.2.2.2.toInt64⟩

def toRequest (x : Bytes × Bytes × UInt64) : Request := ⟨x.1, x.2.1, x.2.2.toInt64⟩

theorem reads_contact : Reads decodeContact contactFields toContact := by
  have h₄ publicKey nickname trust := reads_u64.map fun lastSeen =>
    (⟨publicKey, nickname, .ofByte trust, lastSeen.toInt64⟩ : Contact)
  have h₃ publicKey nickname := reads_u8.bind (h₄ publicKey nickname)
  have h₂ publicKey := reads_bytes.bind (h₃ publicKey)
  exact reads_bytes.bind h₂

theorem reads_message : Reads decodeMessage contactFields toMessage := by
  have h₄ peer text (outgoing : UInt8) := reads_u64.map fun timestamp =>
    (⟨peer, text, outgoing ≠ 0, timestamp.toInt64⟩ : Message)
  have h₃ peer text := reads_u8.bind (h₄ peer text)
  have h₂ peer := reads_bytes.bind (h₃ peer)
  exact reads_bytes.bind h₂

theorem reads_request : Reads decodeRequest requestFields toRequest := by
  have h₃ peer greeting := reads_u64.map fun timestamp =>
    (⟨peer, greeting, timestamp.toInt64⟩ : Request)
  have h₂ peer := reads_bytes.bind (h₃ peer)
  exact reads_bytes.bind h₂

def lists : Codec (List (Bytes × Bytes × UInt8 × UInt64) × List (Bytes × Bytes × UInt8 × UInt64) ×
    List (Bytes × Bytes × UInt64)) :=
  (Codec.counted 4 contactFields).pair
    ((Codec.counted 4 contactFields).pair (Codec.counted 4 requestFields))

def toLists (x : List (Bytes × Bytes × UInt8 × UInt64) × List (Bytes × Bytes × UInt8 × UInt64) ×
    List (Bytes × Bytes × UInt64)) : List Contact × List Message × List Request :=
  (x.1.map toContact, x.2.1.map toMessage, x.2.2.map toRequest)

def readLists (r : Reader) : Except Stop ((List Contact × List Message × List Request) × Reader) :=
  listOf decodeContact r >>= fun x => listOf decodeMessage x.2 >>= fun y =>
    listOf decodeRequest y.2 >>= fun z => pure ((x.1, y.1, z.1), z.2)

theorem reads_lists : Reads readLists lists toLists := by
  have h₃ contacts messages := (reads_listOf reads_request).map fun requests =>
    ((contacts, messages, requests) : List Contact × List Message × List Request)
  have h₂ contacts := (reads_listOf reads_message).andThen
    (fun messages r => listOf decodeRequest r >>= fun z => pure ((contacts, messages, z.1), z.2))
    fun messages => h₃ contacts (messages.map toMessage)
  exact (reads_listOf reads_contact).andThen
    (fun contacts r => listOf decodeMessage r >>= fun y => listOf decodeRequest y.2 >>= fun z =>
      pure ((contacts, y.1, z.1), z.2))
    fun contacts => h₂ (contacts.map toContact)

theorem left_done {b rest : Bytes} (hs : rest <:+ b) : (left b rest).done = rest.isEmpty := by
  have hoff := left_off hs
  cases rest with
  | nil =>
    simp only [Reader.done, left, List.length_nil, Nat.sub_zero, decide_true, List.isEmpty_nil]
  | cons v rest =>
    simp only [List.length_cons, left] at hoff
    simp only [Reader.done, left, List.length_cons, List.isEmpty_cons]
    exact decide_eq_false (by omega)

theorem decode_current (rest : Bytes) :
    decode (kPayloadVersion :: rest) = match lists.get rest with
      | some (x, []) => .ok (toLists x)
      | _ => .error .refused := by
  have hs : rest <:+ kPayloadVersion :: rest := List.suffix_cons _ _
  have hread : decode (kPayloadVersion :: rest) =
      readLists (left (kPayloadVersion :: rest) rest) >>= fun x =>
        if x.2.done then pure x.1 else throw .refused := by
    have hversion : Reader.u8 ⟨kPayloadVersion :: rest, 0⟩ =
        .ok (kPayloadVersion, left (kPayloadVersion :: rest) rest) := by
      have hu8 := reads_u8 (kPayloadVersion :: rest) _ (List.suffix_refl _)
      simpa [left, Codec.byte] using hu8
    simp only [decode, List.head?_cons, ↓reduceIte, hversion]
    simp only [readLists, listOf, decodeContacts, bind_assoc, pure_bind]
    rfl
  rw [hread, reads_lists _ rest hs]
  cases hget : lists.get rest with
  | none => rfl
  | some x =>
    obtain ⟨x, rest'⟩ := x
    change (if (left (kPayloadVersion :: rest) rest').done then _ else _) = _
    rw [left_done (suffix_of_get hs hget)]
    cases rest' <;> rfl

theorem ofByte_toByte (t : TrustStatus) : TrustStatus.ofByte t.toByte = t := by
  cases t with
  | other code h =>
    have hne : ∀ c : UInt8, c ≤ 3 → code ≠ c := by
      rintro c hle rfl
      exact UInt8.not_le.mpr h hle
    simp [TrustStatus.ofByte, TrustStatus.toByte, hne, h]
  | _ => rfl

def ofContact (c : Contact) : Bytes × Bytes × UInt8 × UInt64 :=
  (c.publicKey, c.nickname, c.trust.toByte, c.lastSeen.toUInt64)

def ofMessage (m : Message) : Bytes × Bytes × UInt8 × UInt64 :=
  (m.peer, m.text, if m.outgoing then 1 else 0, m.timestamp.toUInt64)

def ofRequest (q : Request) : Bytes × Bytes × UInt64 := (q.peer, q.greeting, q.timestamp.toUInt64)

theorem toContact_ofContact (c : Contact) : toContact (ofContact c) = c := by
  simp only [toContact, ofContact, ofByte_toByte, Int64.toInt64_toUInt64]

theorem toMessage_ofMessage (m : Message) : toMessage (ofMessage m) = m := by
  obtain ⟨peer, text, outgoing, timestamp⟩ := m
  cases outgoing <;> simp [toMessage, ofMessage]

theorem toRequest_ofRequest (q : Request) : toRequest (ofRequest q) = q := by
  simp only [toRequest, ofRequest, Int64.toInt64_toUInt64]

theorem putU16_eq (v : UInt16) : putU16 v = Codec.u16.put v := by
  change putU16 v = bigEndian 2 v.toNat
  simp only [putU16, bigEndian, List.cons.injEq, and_true, ← UInt8.toNat_inj]
  constructor <;> simp [Nat.shiftRight_eq_div_pow, Nat.and_two_pow_sub_one_eq_mod _ 8]

theorem putU32_eq (v : UInt32) : putU32 v = Codec.u32.put v := by
  change putU32 v = bigEndian 4 v.toNat
  simp only [putU32, List.map, bigEndian, List.cons.injEq, and_true, ← UInt8.toNat_inj]
  refine ⟨?_, ?_, ?_, ?_⟩ <;>
    simp [Nat.shiftRight_eq_div_pow, Nat.and_two_pow_sub_one_eq_mod _ 8]

theorem putBytes_eq {bytes : Bytes} (h : bytes.length ≤ 65535) :
    putBytes bytes = Codec.field.put bytes := by
  have hn : (UInt16.ofNat bytes.length).toNat = bytes.length :=
    UInt16.toNat_ofNat_of_lt' (Nat.lt_succ_of_le h)
  rw [putBytes, putU16_eq]
  change bigEndian 2 (UInt16.ofNat bytes.length).toNat ++ bytes = bigEndian 2 bytes.length ++ bytes
  rw [hn]

/-- A blob that does not start with the version byte is taken for a list of contacts. -/
theorem decode_legacy {blob : Bytes} (h : blob.head? ≠ some kPayloadVersion) :
    decode blob = match (Codec.counted 4 contactFields).get blob with
      | some (x, []) => .ok (x.map toContact, [], [])
      | _ => .error .refused := by
  have hstart : (⟨blob, 0⟩ : Reader) = left blob blob := by rw [left, Nat.sub_self]
  have hread : decode blob = listOf decodeContact (left blob blob) >>= fun x =>
      if x.2.done then pure (x.1, [], []) else throw .refused := by
    unfold decode
    rw [if_neg h, ← hstart]
    rfl
  have hs : blob <:+ blob := List.suffix_refl _
  rw [hread, reads_listOf reads_contact _ blob hs]
  cases hget : (Codec.counted 4 contactFields).get blob with
  | none => rfl
  | some x =>
    obtain ⟨x, rest⟩ := x
    change (if (left blob rest).done then _ else _) = _
    rw [left_done (suffix_of_get hs hget)]
    cases rest <;> rfl

/-- What fits the format: every length its two bytes, and every count its four. -/
structure Storable (contacts : List Contact) (messages : List Message) (requests : List Request) :
    Prop where
  contacts_count : contacts.length < 256 ^ 4
  messages_count : messages.length < 256 ^ 4
  requests_count : requests.length < 256 ^ 4
  contacts_fit : ∀ c ∈ contacts, c.publicKey.length ≤ 65535 ∧ c.nickname.length ≤ 65535
  messages_fit : ∀ m ∈ messages, m.peer.length ≤ 65535 ∧ m.text.length ≤ 65535
  requests_fit : ∀ q ∈ requests, q.peer.length ≤ 65535 ∧ q.greeting.length ≤ 65535

theorem contactFields_dom {x : Bytes × Bytes × UInt8 × UInt64} :
    contactFields.dom x ↔ x.1.length ≤ 65535 ∧ x.2.1.length ≤ 65535 := by
  have hu64 : Codec.u64.dom x.2.2.2 := x.2.2.2.toNat_lt
  simp only [contactFields, Codec.pair, Codec.field, Codec.byte, hu64, and_true]
  omega

theorem requestFields_dom {x : Bytes × Bytes × UInt64} :
    requestFields.dom x ↔ x.1.length ≤ 65535 ∧ x.2.1.length ≤ 65535 := by
  have hu64 : Codec.u64.dom x.2.2 := x.2.2.toNat_lt
  simp only [requestFields, Codec.pair, Codec.field, hu64, and_true]
  omega

theorem storable_of_dom {x : List (Bytes × Bytes × UInt8 × UInt64) ×
    List (Bytes × Bytes × UInt8 × UInt64) × List (Bytes × Bytes × UInt64)} (h : lists.dom x) :
    Storable (x.1.map toContact) (x.2.1.map toMessage) (x.2.2.map toRequest) where
  contacts_count := by simpa using h.1.1
  messages_count := by simpa using h.2.1.1
  requests_count := by simpa using h.2.2.1
  contacts_fit := List.forall_mem_map.mpr fun y hy => contactFields_dom.mp (h.1.2 y hy)
  messages_fit := List.forall_mem_map.mpr fun y hy => contactFields_dom.mp (h.2.1.2 y hy)
  requests_fit := List.forall_mem_map.mpr fun y hy => requestFields_dom.mp (h.2.2.2 y hy)

/-- Nothing else is ever read back. -/
theorem storable_of_decode {blob : Bytes} {contacts : List Contact} {messages : List Message}
    {requests : List Request} (h : decode blob = .ok (contacts, messages, requests)) :
    Storable contacts messages requests := by
  by_cases hversion : blob.head? = some kPayloadVersion
  · obtain ⟨rest, rfl⟩ : ∃ rest, blob = kPayloadVersion :: rest := by
      cases blob with
      | nil => cases hversion
      | cons v rest => exact ⟨rest, by rw [Option.some.inj hversion]⟩
    rw [decode_current] at h
    split at h
    · next x hget =>
      cases h
      exact storable_of_dom (lists.put_get _ _ _ hget).1
    · cases h
  · rw [decode_legacy hversion] at h
    split at h
    · next x hget =>
      cases h
      have hd := ((Codec.counted 4 contactFields).put_get _ _ _ hget).1
      exact storable_of_dom (x := (x, [], [])) ⟨hd, ⟨by simp, by simp⟩, by simp, by simp⟩
    · cases h

section Encode

variable {contacts : List Contact} {messages : List Message} {requests : List Request}

theorem lists_dom (h : Storable contacts messages requests) :
    lists.dom (contacts.map ofContact, messages.map ofMessage, requests.map ofRequest) := by
  refine ⟨⟨by simpa using h.contacts_count, ?_⟩, ⟨by simpa using h.messages_count, ?_⟩,
    by simpa using h.requests_count, ?_⟩
  · exact List.forall_mem_map.mpr fun c hc => contactFields_dom.mpr (h.contacts_fit c hc)
  · exact List.forall_mem_map.mpr fun m hm => contactFields_dom.mpr (h.messages_fit m hm)
  · exact List.forall_mem_map.mpr fun q hq => requestFields_dom.mpr (h.requests_fit q hq)

theorem listOf_eq {γ δ : Type} {c : Codec δ} {put : γ → Bytes} {f : γ → δ} {xs : List γ}
    (hcount : xs.length < 256 ^ 4) (hput : ∀ x ∈ xs, put x = c.put (f x)) :
    putU32 (UInt32.ofNat xs.length) ++ xs.flatMap put = (Codec.counted 4 c).put (xs.map f) := by
  have hn : (UInt32.ofNat xs.length).toNat = xs.length := UInt32.toNat_ofNat_of_lt' hcount
  rw [putU32_eq]
  change bigEndian 4 (UInt32.ofNat xs.length).toNat ++ _ =
    bigEndian 4 (xs.map f).length ++ (xs.map f).flatMap c.put
  rw [hn, List.length_map, List.flatMap_map, List.flatMap_congr hput]

theorem encodeContact_eq {c : Contact} (hkey : c.publicKey.length ≤ 65535)
    (hnick : c.nickname.length ≤ 65535) : encodeContact c = contactFields.put (ofContact c) := by
  have hseen : putU64 c.lastSeen.toUInt64 = Codec.u64.put c.lastSeen.toUInt64 := putU64_eq _
  simp only [encodeContact, putStr, putBytes_eq hkey, putBytes_eq hnick, hseen, List.append_assoc]
  rfl

theorem encodeMessage_eq {m : Message} (hpeer : m.peer.length ≤ 65535)
    (htext : m.text.length ≤ 65535) : encodeMessage m = contactFields.put (ofMessage m) := by
  have htime : putU64 m.timestamp.toUInt64 = Codec.u64.put m.timestamp.toUInt64 := putU64_eq _
  simp only [encodeMessage, putStr, putBytes_eq hpeer, putBytes_eq htext, htime, List.append_assoc]
  rfl

theorem encodeRequest_eq {q : Request} (hpeer : q.peer.length ≤ 65535)
    (hgreeting : q.greeting.length ≤ 65535) : encodeRequest q = requestFields.put (ofRequest q) := by
  have htime : putU64 q.timestamp.toUInt64 = Codec.u64.put q.timestamp.toUInt64 := putU64_eq _
  simp only [encodeRequest, putStr, putBytes_eq hpeer, putBytes_eq hgreeting, htime,
    List.append_assoc]
  rfl

theorem encode_eq (h : Storable contacts messages requests) :
    encode contacts messages requests = kPayloadVersion :: lists.put
      (contacts.map ofContact, messages.map ofMessage, requests.map ofRequest) := by
  have hcontacts := listOf_eq h.contacts_count fun c hc =>
    encodeContact_eq (h.contacts_fit c hc).1 (h.contacts_fit c hc).2
  have hmessages := listOf_eq h.messages_count fun m hm =>
    encodeMessage_eq (h.messages_fit m hm).1 (h.messages_fit m hm).2
  have hrequests := listOf_eq h.requests_count fun q hq =>
    encodeRequest_eq (h.requests_fit q hq).1 (h.requests_fit q hq).2
  rw [encode, encodeContacts, hcontacts, hmessages, hrequests, List.append_assoc, List.append_assoc]
  rfl

/-- What fits is read back as it was. -/
theorem decode_encode (h : Storable contacts messages requests) :
    decode (encode contacts messages requests) = .ok (contacts, messages, requests) := by
  have hget := lists.get_put _ [] (lists_dom h)
  rw [List.append_nil] at hget
  rw [encode_eq h, decode_current, hget]
  simp only [toLists, List.map_map, Function.comp_def, toContact_ofContact, toMessage_ofMessage,
    toRequest_ofRequest, List.map_id']

/-- Whatever fits the format comes back from a payload, and nothing may follow it there. -/
theorem payload_round_trip (h : Storable contacts messages requests) :
    decode (encode contacts messages requests) = .ok (contacts, messages, requests) ∧
      ∀ rest, rest ≠ [] → decode (encode contacts messages requests ++ rest) = .error .refused := by
  refine ⟨decode_encode h, fun rest hrest => ?_⟩
  have hget := lists.get_put _ rest (lists_dom h)
  rw [encode_eq h, List.cons_append, decode_current, hget]
  cases rest with
  | nil => exact absurd rfl hrest
  | cons b rest => rfl

theorem payload_round_trip_small :
    decode (encode [⟨[1, 2], [65], .other 200 (by decide), -1⟩] [⟨[1], [104, 105], true, 5⟩]
      [⟨[3], [], 7⟩]) = .ok ([⟨[1, 2], [65], .other 200 (by decide), -1⟩],
        [⟨[1], [104, 105], true, 5⟩], [⟨[3], [], 7⟩]) :=
  (payload_round_trip ⟨by decide, by decide, by decide, by decide, by decide, by decide⟩).1

end Encode

end OpenMesh.Storage.DatabaseCodec
