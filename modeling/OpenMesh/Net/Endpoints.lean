import OpenMesh.Net.Addresses

namespace OpenMesh.Net.Endpoints

open OpenMesh.Core.Buffers OpenMesh.Net.Transport OpenMesh.Net.Addresses

def Engine.parseEndpoint (payload : Bytes) : Option Endpoint := Transport.parseEndpoint payload

def SignalingClient.parseEndpoint (payload : Bytes) : Option Endpoint :=
  Transport.parseEndpoint payload

/-- The copy of `om-chat`, for an argument. It does not ask for the empty text first. -/
def OmChat.parseEndpoint (s : Bytes) : Option Endpoint :=
  match rfind s colon with
  | none => none
  | some pos =>
    if s.length ≤ pos + 1 then none
    else some ⟨s.take pos, (strtoul (s.drop (pos + 1))).toUInt16⟩

inductive Reader where
  | engine
  | signalingClient
  | omChat

def Reader.parseEndpoint : Reader → Bytes → Option Endpoint
  | engine => Engine.parseEndpoint
  | signalingClient => SignalingClient.parseEndpoint
  | omChat => OmChat.parseEndpoint

theorem omChat_parseEndpoint (s : Bytes) : OmChat.parseEndpoint s = Transport.parseEndpoint s := by
  cases s with
  | nil => rfl
  | cons b s =>
    unfold OmChat.parseEndpoint Transport.parseEndpoint
    exact (if_neg (List.cons_ne_nil b s)).symm

theorem parseEndpoint_reader (r : Reader) (s : Bytes) :
    r.parseEndpoint s = Transport.parseEndpoint s := by
  cases r with
  | engine => rfl
  | signalingClient => rfl
  | omChat => exact omChat_parseEndpoint s

/-- What is printed of an endpoint is read back by every copy, and the copies
agree on every text. -/
theorem readers_agree (r : Reader) :
    (∀ e : Endpoint, r.parseEndpoint e.toString = some e) ∧
    ∀ (r' : Reader) (s : Bytes), r.parseEndpoint s = r'.parseEndpoint s := by
  constructor
  · intro e
    rw [parseEndpoint_reader]
    exact parseEndpoint_toString e
  · intro r' s
    rw [parseEndpoint_reader, parseEndpoint_reader]

structure PortText (text : Bytes) : Prop where
  digits : ∀ d ∈ text, isDigit d = true
  small : digitsValue text ≤ 65535

/-- A strict answer to a text: what is accepted ends in the number of the port,
and every other text after the last colon is refused. -/
structure Strict (s : Bytes) (answer : Option Endpoint) : Prop where
  accepted : ∀ e, answer = some e → ∃ port, s = e.host ++ colon :: port ∧ colon ∉ port ∧
    port ≠ [] ∧ PortText port ∧ digitsValue port = e.port.toNat
  refused : ∀ host port, s = host ++ colon :: port → colon ∉ port →
    port = [] ∨ ¬ PortText port → answer = none

theorem strict_none (s : Bytes) : Strict s none :=
  ⟨fun e he => absurd he.symm (Option.some_ne_none e), fun _ _ _ _ _ => rfl⟩

theorem last_colon (s : Bytes) :
    colon ∉ s ∨ ∃ host port, s = host ++ colon :: port ∧ colon ∉ port := by
  by_cases hs : colon ∈ s
  · obtain ⟨front, back, hrev, hfront⟩ := List.eq_append_cons_of_mem (List.mem_reverse.mpr hs)
    have hsplit := congrArg List.reverse hrev
    rw [List.reverse_reverse, List.reverse_append, List.reverse_cons, List.append_assoc,
      List.singleton_append] at hsplit
    exact .inr ⟨back.reverse, front.reverse, hsplit, fun h => hfront (List.mem_reverse.mp h)⟩
  · exact .inl hs

theorem last_colon_unique {host port host' port' : Bytes}
    (h : host ++ colon :: port = host' ++ colon :: port') (hport : colon ∉ port)
    (hport' : colon ∉ port') : host = host' ∧ port = port' := by
  have hfind := congrArg (rfind · colon) h
  simp only [rfind_append hport, rfind_append hport', Option.some.injEq] at hfind
  obtain ⟨hhost, htail⟩ := List.append_inj h hfind
  exact ⟨hhost, (List.cons.inj htail).2⟩

theorem strict_some {host port : Bytes} (hcolon : colon ∉ port) (hne : port ≠ [])
    (htext : PortText port) :
    Strict (host ++ colon :: port) (some ⟨host, (strtoul port).toUInt16⟩) := by
  constructor
  · intro e he
    obtain rfl := Option.some.inj he
    exact ⟨port, rfl, hcolon, hne, htext, (strtoul_port htext.digits htext.small).symm⟩
  · intro host' port' hs hcolon' hbad
    obtain ⟨rfl, rfl⟩ := last_colon_unique hs hcolon hcolon'
    obtain hempty | hnot := hbad
    · exact absurd hempty hne
    · exact absurd htext hnot

theorem parseEndpoint_no_colon {s : Bytes} (hs : colon ∉ s) : Transport.parseEndpoint s = none := by
  unfold Transport.parseEndpoint
  rw [rfind_eq_none hs, ite_self]

/-- Digits after the last colon always make an endpoint. Up to the largest port it
is theirs, from there on it is what is left of the number in 16 bits. -/
theorem parseEndpoint_digits {host port : Bytes} (hne : port ≠ [])
    (hdigits : ∀ d ∈ port, isDigit d = true) :
    Transport.parseEndpoint (host ++ colon :: port) =
      some ⟨host, UInt16.ofNat (min (digitsValue port) (2 ^ 64 - 1))⟩ := by
  have hcolon : colon ∉ port := fun h => absurd (hdigits colon h) (by decide)
  have hvalue : (strtoul port).toUInt16 = UInt16.ofNat (min (digitsValue port) (2 ^ 64 - 1)) := by
    rw [← UInt16.toNat_inj, strtoul_digits hdigits, UInt64.toNat_toUInt16, UInt16.toNat_ofNat']
    split_ifs <;> rw [UInt64.toNat_ofNat'] <;> omega
  rw [parseEndpoint_split hcolon, if_neg hne, hvalue]

/-- A blank, a sign and what follows the digits are all taken: `"h: -1x"`. -/
example : OmChat.parseEndpoint [0x68, 0x3A, 0x20, 0x2D, 0x31, 0x78] = some ⟨[0x68], 65535⟩ := by
  decide

/-- A copy is strict on the texts without a colon, on those with nothing after the
last one, and on those with a port there. -/
theorem strict_iff (r : Reader) (s : Bytes) :
    Strict s (r.parseEndpoint s) ↔
      ∀ host port, s = host ++ colon :: port → colon ∉ port → port = [] ∨ PortText port := by
  rw [parseEndpoint_reader]
  constructor
  · intro hstrict host port hs hcolon
    by_cases hne : port = []
    · exact .inl hne
    · apply Or.inr
      by_contra htext
      have hnone := hstrict.refused host port hs hcolon (.inr htext)
      rw [hs, parseEndpoint_split hcolon, if_neg hne] at hnone
      exact Option.some_ne_none _ hnone
  · intro hall
    obtain hs | ⟨host, port, hs, hcolon⟩ := last_colon s
    · rw [parseEndpoint_no_colon hs]
      exact strict_none s
    have hparse : Transport.parseEndpoint s =
        if port = [] then none else some ⟨host, (strtoul port).toUInt16⟩ := by
      rw [hs]
      exact parseEndpoint_split hcolon
    by_cases hne : port = []
    · rw [hparse, if_pos hne]
      exact strict_none s
    have htext := (hall host port hs hcolon).resolve_left hne
    rw [hparse, if_neg hne, hs]
    exact strict_some hcolon hne htext

/-- `"h:65616"` is read as port 80. -/
def wrapped : Bytes := [0x68, 0x3A, 0x36, 0x35, 0x36, 0x31, 0x36]

theorem wrapped_accepted :
    Reader.engine.parseEndpoint wrapped = some ⟨[0x68], 80⟩ ∧
    ¬ Strict wrapped (Reader.engine.parseEndpoint wrapped) := by
  have hparse : Reader.engine.parseEndpoint wrapped = some ⟨[0x68], 80⟩ := by decide
  refine ⟨hparse, fun hstrict => ?_⟩
  have hnone := hstrict.refused [0x68] [0x36, 0x35, 0x36, 0x31, 0x36] rfl (by decide)
    (.inr fun htext => absurd htext.small (by decide))
  rw [hparse] at hnone
  exact Option.some_ne_none _ hnone

end OpenMesh.Net.Endpoints
