import OpenMesh.Cli.Names

namespace OpenMesh.Cli.HexKeys

open OpenMesh.Core.Buffers OpenMesh.Core.Hex OpenMesh.Cli.Names

/-- The loop of `from_hex`, from the character at `i` on. A text has a zero behind it. -/
def readPairs (hex : Bytes) (i : ℕ) (out : Bytes) : Option Bytes :=
  if i < hex.length then
    match nibble (hex.getD i 0), nibble (hex.getD (i + 1) 0) with
    | some hi, some lo => readPairs hex (i + 2) (out ++ [hi <<< 4 ||| lo])
    | _, _ => none
  else some out
termination_by hex.length - i

def readHex (hex : Bytes) : Option Bytes :=
  if hex.length % 2 ≠ 0 then none else readPairs hex 0 []

def Chat.fromHex (hex : Bytes) : Option Bytes := readHex hex

def Tui.fromHex (hex : Bytes) : Option Bytes := readHex hex

inductive Interface where
  | chat
  | tui

def Interface.fromHex : Interface → Bytes → Option Bytes
  | chat => Chat.fromHex
  | tui => Tui.fromHex

theorem readPairs_append (front hex out : Bytes) (heven : hex.length % 2 = 0) :
    readPairs (front ++ hex) front.length out = (Names.fromHex hex).map (out ++ ·) := by
  induction hex using List.twoStepInduction generalizing front out with
  | nil =>
    rw [readPairs, if_neg (by simp)]
    simp [Names.fromHex]
  | singleton c => cases heven
  | cons_cons hi lo hex ih _ =>
    have hrest : hex.length % 2 = 0 := by
      simp only [List.length_cons] at heven
      omega
    have hfirst : (front ++ hi :: lo :: hex).getD front.length 0 = hi := by simp
    have hsecond : (front ++ hi :: lo :: hex).getD (front.length + 1) 0 = lo := by simp
    have hlonger : front ++ hi :: lo :: hex = (front ++ [hi, lo]) ++ hex := by simp
    have hnext : (front ++ [hi, lo]).length = front.length + 2 := List.length_append
    rw [readPairs, if_pos (by simp), hfirst, hsecond]
    cases hhi : nibble hi with
    | none => simp [Names.fromHex, hhi]
    | some v =>
      cases hlo : nibble lo with
      | none => simp [Names.fromHex, hhi, hlo]
      | some w =>
        have hloop := ih (front ++ [hi, lo]) (out ++ [v <<< 4 ||| w]) hrest
        rw [← hlonger, hnext] at hloop
        dsimp only
        rw [hloop]
        cases hout : Names.fromHex hex with
        | none => simp [Names.fromHex, hhi, hlo, hout]
        | some x => simp [Names.fromHex, hhi, hlo, hout]

theorem fromHex_odd {hex : Bytes} (hodd : hex.length % 2 ≠ 0) : Names.fromHex hex = none := by
  cases hout : Names.fromHex hex with
  | none => rfl
  | some out =>
    have hlen := fromHex_length hout
    omega

theorem fromHex_interface (i : Interface) (hex : Bytes) : i.fromHex hex = Names.fromHex hex := by
  have hread : readHex hex = Names.fromHex hex := by
    rw [readHex]
    split_ifs with hodd
    · exact (fromHex_odd hodd).symm
    · have hloop := readPairs_append [] hex [] (not_not.mp hodd)
      rw [List.nil_append, List.length_nil] at hloop
      simpa using hloop
  cases i with
  | chat => exact hread
  | tui => exact hread

def IsHexDigit (c : UInt8) : Prop :=
  (0x30 ≤ c ∧ c ≤ 0x39) ∨ (0x61 ≤ c ∧ c ≤ 0x66) ∨ (0x41 ≤ c ∧ c ≤ 0x46)

def lower (c : UInt8) : UInt8 := if 0x41 ≤ c ∧ c ≤ 0x5A then c + 0x20 else c

theorem nibble_reads (c : UInt8) : (∃ v, nibble c = some v) ↔ IsHexDigit c := by
  unfold nibble IsHexDigit
  split_ifs with hdigit hsmall hcapital
  · exact iff_of_true ⟨_, rfl⟩ (.inl hdigit)
  · exact iff_of_true ⟨_, rfl⟩ (.inr (.inl hsmall))
  · exact iff_of_true ⟨_, rfl⟩ (.inr (.inr hcapital))
  · refine iff_of_false ?_ ?_
    · rintro ⟨v, h⟩
      cases h
    · rintro (h | h | h)
      · exact hdigit h
      · exact hsmall h
      · exact hcapital h

theorem nibble_digit {c v : UInt8} (h : nibble c = some v) :
    v < 16 ∧ kHex.getD v.toNat 0 = lower c := by
  have hall : ∀ n : Fin 256, ∀ v ∈ nibble (UInt8.ofFin n),
      v < 16 ∧ kHex.getD v.toNat 0 = lower (UInt8.ofFin n) := by decide +kernel
  exact hall c.toFin v h

theorem nibble_kHex (b : UInt8) :
    nibble (kHex.getD (b >>> 4).toNat 0) = some (b >>> 4) ∧
    nibble (kHex.getD (b &&& 0x0F).toNat 0) = some (b &&& 0x0F) := by
  have hall : ∀ n : Fin 256,
      nibble (kHex.getD (UInt8.ofFin n >>> 4).toNat 0) = some (UInt8.ofFin n >>> 4) ∧
      nibble (kHex.getD (UInt8.ofFin n &&& 0x0F).toNat 0) = some (UInt8.ofFin n &&& 0x0F) := by
    decide +kernel
  exact hall b.toFin

theorem halves_join (b : UInt8) : (b >>> 4) <<< 4 ||| (b &&& 0x0F) = b := by
  have hall : ∀ n : Fin 256, (UInt8.ofFin n >>> 4) <<< 4 ||| (UInt8.ofFin n &&& 0x0F) =
      UInt8.ofFin n := by decide +kernel
  exact hall b.toFin

theorem halves_value {v w : UInt8} (hv : v < 16) (hw : w < 16) :
    (v <<< 4 ||| w).toNat = v.toNat * 16 + w.toNat := by
  have hv' : v.toNat < 16 := UInt8.lt_iff_toNat_lt.mp hv
  have hw' : w.toNat < 2 ^ 4 := UInt8.lt_iff_toNat_lt.mp hw
  rw [UInt8.toNat_or, UInt8.toNat_shiftLeft]
  have hshift : v.toNat <<< ((4 : UInt8).toNat % 8) % 2 ^ 8 = v.toNat <<< 4 := by
    show v.toNat <<< 4 % 2 ^ 8 = v.toNat <<< 4
    rw [Nat.shiftLeft_eq]
    omega
  rw [hshift, ← Nat.shiftLeft_add_eq_or_of_lt hw', Nat.shiftLeft_eq]

theorem halves_apart {v w : UInt8} (hv : v < 16) (hw : w < 16) :
    (v <<< 4 ||| w) >>> 4 = v ∧ (v <<< 4 ||| w) &&& 0x0F = w := by
  have hvalue := halves_value hv hw
  have hw' : w.toNat < 16 := UInt8.lt_iff_toNat_lt.mp hw
  constructor
  · rw [← UInt8.toNat_inj, UInt8.toNat_shiftRight, hvalue]
    show (v.toNat * 16 + w.toNat) >>> 4 = v.toNat
    rw [Nat.shiftRight_eq_div_pow]
    omega
  · rw [← UInt8.toNat_inj, UInt8.toNat_and, hvalue]
    show (v.toNat * 16 + w.toNat) &&& (2 ^ 4 - 1) = w.toNat
    rw [Nat.and_two_pow_sub_one_eq_mod]
    omega

theorem fromHex_toHex (bytes : Bytes) : Names.fromHex (toHex bytes) = some bytes := by
  induction bytes with
  | nil => rfl
  | cons b bytes ih =>
    obtain ⟨hhi, hlo⟩ := nibble_kHex b
    simp only [toHex, Names.fromHex, hhi, hlo, ih, halves_join]

theorem fromHex_cons {hi lo : UInt8} {s out : Bytes} :
    Names.fromHex (hi :: lo :: s) = some out ↔ ∃ v w rest, nibble hi = some v ∧
      nibble lo = some w ∧ Names.fromHex s = some rest ∧ (v <<< 4 ||| w) :: rest = out := by
  rw [Names.fromHex]
  cases nibble hi with
  | none => simp
  | some v =>
    cases nibble lo with
    | none => simp
    | some w => cases Names.fromHex s <;> simp

theorem toHex_fromHex {s out : Bytes} (h : Names.fromHex s = some out) :
    toHex out = s.map lower := by
  induction s using List.twoStepInduction generalizing out with
  | nil =>
    cases h
    rfl
  | singleton c => cases h
  | cons_cons hi lo s ih _ =>
    obtain ⟨v, w, rest, hhi, hlo, hs, rfl⟩ := fromHex_cons.mp h
    obtain ⟨hv, hhigh⟩ := nibble_digit hhi
    obtain ⟨hw, hlow⟩ := nibble_digit hlo
    obtain ⟨hfirst, hsecond⟩ := halves_apart hv hw
    rw [toHex, hfirst, hsecond, hhigh, hlow, ih hs, List.map_cons, List.map_cons]

theorem fromHex_reads (s : Bytes) :
    (∃ out, Names.fromHex s = some out) ↔ s.length % 2 = 0 ∧ ∀ c ∈ s, IsHexDigit c := by
  induction s using List.twoStepInduction with
  | nil => exact iff_of_true ⟨[], rfl⟩ ⟨rfl, fun c hc => absurd hc List.not_mem_nil⟩
  | singleton c =>
    refine iff_of_false ?_ fun h => absurd h.1 (by simp)
    rintro ⟨out, h⟩
    cases h
  | cons_cons hi lo s ih _ =>
    have hlen : (hi :: lo :: s).length % 2 = 0 ↔ s.length % 2 = 0 := by
      simp only [List.length_cons]
      omega
    rw [hlen, List.forall_mem_cons, List.forall_mem_cons, ← nibble_reads hi, ← nibble_reads lo]
    constructor
    · rintro ⟨out, h⟩
      obtain ⟨v, w, rest, hhi, hlo, hs, -⟩ := fromHex_cons.mp h
      obtain ⟨heven, hall⟩ := ih.mp ⟨rest, hs⟩
      exact ⟨heven, ⟨v, hhi⟩, ⟨w, hlo⟩, hall⟩
    · rintro ⟨heven, ⟨v, hhi⟩, ⟨w, hlo⟩, hall⟩
      obtain ⟨rest, hs⟩ := ih.mpr ⟨heven, hall⟩
      exact ⟨(v <<< 4 ||| w) :: rest, fromHex_cons.mpr ⟨v, w, rest, hhi, hlo, hs, rfl⟩⟩

/-- Keys and their hex texts: no two keys share one, a key is read back from its own, and
what is read back is what is written there, in either case. -/
theorem hex_reverses (i : Interface) :
    (∀ a b : Bytes, toHex a = toHex b → a = b) ∧
    (∀ a : Bytes, i.fromHex (toHex a) = some a) ∧
    ∀ s : Bytes,
      ((∃ x, i.fromHex s = some x) ↔ s.length % 2 = 0 ∧ ∀ c ∈ s, IsHexDigit c) ∧
      ∀ x, i.fromHex s = some x → toHex x = s.map lower := by
  refine ⟨fun a b h => toHex_injective h, fun a => ?_, fun s => ?_⟩
  · rw [fromHex_interface]
    exact fromHex_toHex a
  · simp only [fromHex_interface]
    exact ⟨fromHex_reads s, fun x => toHex_fromHex⟩

end OpenMesh.Cli.HexKeys
