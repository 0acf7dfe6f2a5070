import OpenMesh.Net.Transport

namespace OpenMesh.Net.Addresses

open OpenMesh.Core.Buffers OpenMesh.Net.Transport

theorem decimal_digit {n : ℕ} {d : UInt8} (hd : d ∈ decimal n) : 0x30 ≤ d ∧ d ≤ 0x39 := by
  obtain ⟨c, hc, rfl⟩ := List.mem_map.mp hd
  have hdigit := Nat.isDigit_of_mem_toDigits (by decide) (by decide) hc
  simp only [Char.isDigit, Bool.and_eq_true, decide_eq_true_eq] at hdigit
  have hlo : 48 ≤ c.toNat := hdigit.1
  have hhi : c.toNat ≤ 57 := hdigit.2
  constructor
  · rw [UInt8.le_iff_toNat_le, UInt8.toNat_ofNat']
    show 48 ≤ c.toNat % 2 ^ 8
    omega
  · rw [UInt8.le_iff_toNat_le, UInt8.toNat_ofNat']
    show c.toNat % 2 ^ 8 ≤ 57
    omega

theorem decimal_ne_nil (n : ℕ) : decimal n ≠ [] := by
  simp [decimal]

theorem decimal_length (port : UInt16) : (decimal port.toNat).length ≤ 5 := by
  rw [decimal, List.length_map, Nat.length_toDigits_le_iff (by decide) (by decide)]
  have hport := port.toNat_lt
  omega

theorem digitsValue_decimal (n : ℕ) : digitsValue (decimal n) = n := by
  have hfold : ∀ (cs : List Char) (v : ℕ), (∀ c ∈ cs, c.toNat < 256) →
      (cs.map fun c => UInt8.ofNat c.toNat).foldl (fun v d => v * 10 + (d.toNat - 0x30)) v =
        Nat.ofDigitChars 10 cs v := by
    intro cs
    induction cs with
    | nil => intros; simp
    | cons c cs ih =>
      intro v hcs
      have hc := hcs c List.mem_cons_self
      rw [List.map_cons, List.foldl_cons, ih _ fun c' hc' => hcs c' (List.mem_cons_of_mem _ hc'),
        Nat.ofDigitChars_cons, UInt8.toNat_ofNat', Nat.mod_eq_of_lt hc, Nat.mul_comm]
      rfl
  rw [digitsValue, decimal, hfold, Nat.ofDigitChars_ten_toDigits]
  intro c hc
  have hdigit := Nat.isDigit_of_mem_toDigits (by decide) (by decide) hc
  simp only [Char.isDigit, Bool.and_eq_true, decide_eq_true_eq] at hdigit
  have hhi : c.toNat ≤ 57 := hdigit.2
  omega

theorem strtoul_digits {ds : Bytes} (hdigits : ∀ d ∈ ds, isDigit d = true) :
    strtoul ds = if 2 ^ 64 ≤ digitsValue ds then UInt64.ofNat (2 ^ 64 - 1)
      else UInt64.ofNat (digitsValue ds) := by
  cases ds with
  | nil => decide
  | cons d ds =>
    have hrange := hdigits d List.mem_cons_self
    simp only [isDigit, Bool.and_eq_true, decide_eq_true_eq, UInt8.le_iff_toNat_le,
      UInt8.reduceToNat] at hrange
    have hspace : isSpace d = false := by
      simp only [isSpace, Bool.or_eq_false_iff, decide_eq_false_iff_not, Bool.and_eq_false_iff,
        UInt8.le_iff_toNat_le, UInt8.reduceToNat, ← UInt8.toNat_inj]
      omega
    have hminus : d ≠ 0x2D := by
      rintro rfl
      exact absurd hrange.1 (by decide)
    have hplus : d ≠ 0x2B := by
      rintro rfl
      exact absurd hrange.1 (by decide)
    have hall : (d :: ds).takeWhile isDigit = d :: ds := List.takeWhile_eq_self_iff.mpr hdigits
    unfold strtoul
    rw [List.dropWhile_cons, hspace]
    simp only [Bool.false_eq_true, ↓reduceIte, hminus, hplus, hall]

/-- A port's number in decimal is read back as that port, and only a larger number is wrapped. -/
theorem strtoul_port {ds : Bytes} (hdigits : ∀ d ∈ ds, isDigit d = true)
    (hsmall : digitsValue ds ≤ 65535) : (strtoul ds).toUInt16.toNat = digitsValue ds := by
  rw [strtoul_digits hdigits, if_neg (by omega), UInt64.toNat_toUInt16, UInt64.toNat_ofNat']
  omega

theorem strtoul_decimal (port : UInt16) : (strtoul (decimal port.toNat)).toUInt16 = port := by
  have hdigits : ∀ d ∈ decimal port.toNat, isDigit d = true := by
    intro d hd
    simp only [isDigit, Bool.and_eq_true, decide_eq_true_eq]
    exact decimal_digit hd
  have hport := port.toNat_lt
  have hvalue := digitsValue_decimal port.toNat
  rw [← UInt16.toNat_inj, strtoul_port hdigits (by omega), hvalue]

theorem rfind_eq_none {s : Bytes} {c : UInt8} (hc : c ∉ s) : rfind s c = none := by
  induction s with
  | nil => rfl
  | cons b s ih =>
    simp only [List.mem_cons, not_or] at hc
    simp only [rfind, ih hc.2, Ne.symm hc.1, ↓reduceIte]

theorem rfind_append {s t : Bytes} {c : UInt8} (ht : c ∉ t) : rfind (s ++ c :: t) c = some s.length := by
  induction s with
  | nil => simp only [List.nil_append, rfind, rfind_eq_none ht, ↓reduceIte, List.length_nil]
  | cons b s ih => simp only [List.cons_append, rfind, ih, List.length_cons]

theorem parseEndpoint_split {host port : Bytes} (hport : colon ∉ port) :
    parseEndpoint (host ++ colon :: port) =
      if port = [] then none else some ⟨host, (strtoul port).toUInt16⟩ := by
  have hdrop : (host ++ colon :: port).drop (host.length + 1) = port := by
    rw [← List.drop_drop, List.drop_left]
    rfl
  unfold parseEndpoint
  rw [if_neg (by simp), rfind_append hport]
  dsimp only
  rw [List.take_left, hdrop]
  cases port with
  | nil => simp
  | cons d ds =>
    rw [if_neg (by simp only [List.length_append, List.length_cons]; omega),
      if_neg (List.cons_ne_nil d ds)]

theorem parseEndpoint_toString (e : Endpoint) : parseEndpoint e.toString = some e := by
  have hcolon : colon ∉ decimal e.port.toNat := fun h => absurd (decimal_digit h).2 (by decide)
  rw [Endpoint.toString, parseEndpoint_split hcolon, if_neg (decimal_ne_nil e.port.toNat),
    strtoul_decimal]

theorem toString_length (e : Endpoint) : e.toString.length ≤ e.host.length + 6 := by
  have hport := decimal_length e.port
  simp only [Endpoint.toString, List.length_append, List.length_cons]
  omega

end OpenMesh.Net.Addresses
