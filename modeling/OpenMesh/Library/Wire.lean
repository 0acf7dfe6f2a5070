import Mathlib

namespace OpenMesh.Library.Wire

/-- A self-delimiting format. Reading undoes writing, and whatever is read was
written: the two laws make the format an exact pair. -/
structure Codec (α : Type*) where
  dom : α → Prop
  put : α → List UInt8
  get : List UInt8 → Option (α × List UInt8)
  get_put : ∀ a rest, dom a → get (put a ++ rest) = some (a, rest)
  put_get : ∀ bs a rest, get bs = some (a, rest) → dom a ∧ bs = put a ++ rest

namespace Codec

variable {α β : Type*}

/-- No word of the format is a proper prefix of another. -/
theorem put_append_inj (c : Codec α) {a b : α} {xs ys : List UInt8} (ha : c.dom a)
    (hb : c.dom b) (h : c.put a ++ xs = c.put b ++ ys) : a = b ∧ xs = ys := by
  have hx := c.get_put a xs ha
  rw [h, c.get_put b ys hb] at hx
  simp only [Option.some.injEq, Prod.mk.injEq] at hx
  exact ⟨hx.1.symm, hx.2.symm⟩

def byte : Codec UInt8 where
  dom _ := True
  put b := [b]
  get
    | [] => none
    | b :: rest => some (b, rest)
  get_put _ _ _ := rfl
  put_get bs a rest h := by
    cases bs with
    | nil => cases h
    | cons b bs => cases h; exact ⟨trivial, rfl⟩

def pair (c : Codec α) (d : Codec β) : Codec (α × β) where
  dom p := c.dom p.1 ∧ d.dom p.2
  put p := c.put p.1 ++ d.put p.2
  get bs := (c.get bs).bind fun p => (d.get p.2).map fun q => ((p.1, q.1), q.2)
  get_put p rest hd := by
    simp [List.append_assoc, c.get_put p.1 _ hd.1, d.get_put p.2 _ hd.2]
  put_get bs p rest h := by
    obtain ⟨⟨a, xs⟩, hc, h⟩ := Option.bind_eq_some_iff.mp h
    obtain ⟨⟨b, ys⟩, hd, h⟩ := Option.map_eq_some_iff.mp h
    cases h
    obtain ⟨hda, rfl⟩ := c.put_get bs a xs hc
    obtain ⟨hdb, rfl⟩ := d.put_get xs b ys hd
    exact ⟨⟨hda, hdb⟩, by simp⟩

def iso (c : Codec α) (f : α → β) (g : β → α) (hfg : ∀ b, f (g b) = b)
    (hgf : ∀ a, c.dom a → g (f a) = a) : Codec β where
  dom b := c.dom (g b)
  put b := c.put (g b)
  get bs := (c.get bs).map fun p => (f p.1, p.2)
  get_put b rest hd := by simp [c.get_put _ _ hd, hfg]
  put_get bs b rest h := by
    obtain ⟨⟨a, xs⟩, hc, h⟩ := Option.map_eq_some_iff.mp h
    cases h
    obtain ⟨hd, rfl⟩ := c.put_get bs a xs hc
    exact ⟨by rwa [hgf a hd], by rw [hgf a hd]⟩

end Codec

/-- The low `w` bytes of a number, most significant first. -/
def bigEndian : ℕ → ℕ → List UInt8
  | 0, _ => []
  | w + 1, n => UInt8.ofNat (n / 256 ^ w) :: bigEndian w n

def ofBigEndian : List UInt8 → ℕ
  | [] => 0
  | b :: bs => b.toNat * 256 ^ bs.length + ofBigEndian bs

@[simp] theorem length_bigEndian (w n : ℕ) : (bigEndian w n).length = w := by
  induction w with
  | zero => rfl
  | succ w ih => simp [bigEndian, ih]

theorem ofBigEndian_bigEndian (w n : ℕ) : ofBigEndian (bigEndian w n) = n % 256 ^ w := by
  induction w with
  | zero => simp [bigEndian, ofBigEndian, Nat.mod_one]
  | succ w ih =>
    simp only [bigEndian, ofBigEndian, length_bigEndian, ih, UInt8.toNat_ofNat']
    have hm : n % 256 ^ (w + 1) = n % 256 ^ w + 256 ^ w * (n / 256 ^ w % 256) := by
      rw [pow_succ, Nat.mod_mul]
    rw [hm, Nat.add_comm, Nat.mul_comm]

theorem ofBigEndian_lt (bs : List UInt8) : ofBigEndian bs < 256 ^ bs.length := by
  induction bs with
  | nil => simp [ofBigEndian]
  | cons b bs ih =>
    have hb : b.toNat + 1 ≤ 256 := b.toNat_lt
    have hm := Nat.mul_le_mul_right (256 ^ bs.length) hb
    simp only [ofBigEndian, List.length_cons, pow_succ]
    linarith

/-- A loop that shifts one byte after another into a word of `w` bytes reads a number. -/
theorem foldl_shift {α : Type*} (toNat : α → ℕ) (shift : α → UInt8 → α) (w : ℕ)
    (hshift : ∀ v b, toNat v * 256 < 256 ^ w → toNat (shift v b) = toNat v * 256 + b.toNat)
    (bs : List UInt8) (v : α) (k : ℕ) (hk : k + bs.length = w) (hv : toNat v < 256 ^ k) :
    toNat (bs.foldl shift v) = toNat v * 256 ^ bs.length + ofBigEndian bs := by
  induction bs generalizing v k with
  | nil => simp [ofBigEndian]
  | cons b bs ih =>
    have hk' : k + 1 + bs.length = w := by
      rw [List.length_cons] at hk
      omega
    have hb : b.toNat + 1 ≤ 256 := b.toNat_lt
    have hp : 256 ^ (k + 1) ≤ 256 ^ w := Nat.pow_le_pow_right (by norm_num) (by omega)
    have hlt : toNat v * 256 + b.toNat < 256 ^ (k + 1) := by
      rw [pow_succ]
      omega
    have hnext : toNat (shift v b) = toNat v * 256 + b.toNat :=
      hshift v b (lt_of_le_of_lt (Nat.le_add_right _ _) (lt_of_lt_of_le hlt hp))
    rw [List.foldl_cons, ih _ _ hk' (hnext ▸ hlt), hnext, List.length_cons, ofBigEndian]
    ring

theorem bigEndian_add_mul (w n m : ℕ) : bigEndian w (n + m * 256 ^ w) = bigEndian w n := by
  induction w generalizing m with
  | zero => rfl
  | succ w ih =>
    have hp : 0 < 256 ^ w := by positivity
    have hm : n + m * 256 ^ (w + 1) = n + (m * 256) * 256 ^ w := by ring
    have hd : (n + m * 256 * 256 ^ w) / 256 ^ w = n / 256 ^ w + 256 * m := by
      rw [Nat.add_mul_div_right _ _ hp, mul_comm]
    have hb : UInt8.ofNat (n / 256 ^ w + 256 * m) = UInt8.ofNat (n / 256 ^ w) := by
      rw [← UInt8.toNat_inj]
      simp
    rw [bigEndian, bigEndian, hm, hd, hb, ih]

theorem bigEndian_ofBigEndian (bs : List UInt8) : bigEndian bs.length (ofBigEndian bs) = bs := by
  induction bs with
  | nil => rfl
  | cons b bs ih =>
    have hp : 0 < 256 ^ bs.length := by positivity
    have hd : (b.toNat * 256 ^ bs.length + ofBigEndian bs) / 256 ^ bs.length = b.toNat := by
      rw [add_comm, Nat.add_mul_div_right _ _ hp, Nat.div_eq_of_lt (ofBigEndian_lt bs), zero_add]
    simp only [List.length_cons, bigEndian, ofBigEndian, hd, UInt8.ofNat_toNat]
    rw [add_comm, bigEndian_add_mul, ih]

namespace Codec

def nat (w : ℕ) : Codec ℕ where
  dom n := n < 256 ^ w
  put n := bigEndian w n
  get bs := if w ≤ bs.length then some (ofBigEndian (bs.take w), bs.drop w) else none
  get_put n rest hd := by
    have ht : (bigEndian w n ++ rest).take w = bigEndian w n :=
      List.take_left' (length_bigEndian w n)
    have hr : (bigEndian w n ++ rest).drop w = rest := List.drop_left' (length_bigEndian w n)
    simp [ht, hr, ofBigEndian_bigEndian, Nat.mod_eq_of_lt hd]
  put_get bs n rest h := by
    split at h
    case isFalse => cases h
    case isTrue hw =>
      cases h
      have hl : (bs.take w).length = w := by simp [hw]
      have hlt := ofBigEndian_lt (bs.take w)
      have hb := bigEndian_ofBigEndian (bs.take w)
      rw [hl] at hlt hb
      exact ⟨hlt, by rw [hb, List.take_append_drop]⟩

def u16 : Codec UInt16 :=
  (nat 2).iso UInt16.ofNat UInt16.toNat (by simp)
    (fun n hn => UInt16.toNat_ofNat_of_lt' (by simpa [nat] using hn))

def u32 : Codec UInt32 :=
  (nat 4).iso UInt32.ofNat UInt32.toNat (by simp)
    (fun n hn => UInt32.toNat_ofNat_of_lt' (by simpa [nat] using hn))

def u64 : Codec UInt64 :=
  (nat 8).iso UInt64.ofNat UInt64.toNat (by simp)
    (fun n hn => UInt64.toNat_ofNat_of_lt' (by simpa [nat] using hn))

/-- Bytes behind a two-byte length. -/
def field : Codec (List UInt8) where
  dom bs := bs.length < 256 ^ 2
  put bs := bigEndian 2 bs.length ++ bs
  get bs := ((nat 2).get bs).bind fun p =>
    if p.1 ≤ p.2.length then some (p.2.take p.1, p.2.drop p.1) else none
  get_put bs rest hd := by
    have hg : (nat 2).get (bigEndian 2 bs.length ++ (bs ++ rest)) = some (bs.length, bs ++ rest) :=
      (nat 2).get_put bs.length (bs ++ rest) hd
    simp [List.append_assoc, hg]
  put_get bs a rest h := by
    obtain ⟨⟨n, xs⟩, hn, hb⟩ := Option.bind_eq_some_iff.mp h
    obtain ⟨hd, rfl⟩ := (nat 2).put_get _ _ _ hn
    by_cases hle : n ≤ xs.length
    case neg => simp [hle] at hb
    case pos =>
      simp only [hle, ↓reduceIte, Option.some.injEq, Prod.mk.injEq] at hb
      obtain ⟨rfl, rfl⟩ := hb
      have hl : (xs.take n).length = n := by simpa using hle
      exact ⟨by rw [hl]; exact hd, by rw [hl]; simp [nat]⟩

variable {α : Type*}

def getMany (c : Codec α) : ℕ → List UInt8 → Option (List α × List UInt8)
  | 0, bs => some ([], bs)
  | n + 1, bs => (c.get bs).bind fun p => (getMany c n p.2).map fun q => (p.1 :: q.1, q.2)

theorem getMany_put (c : Codec α) (as : List α) (rest : List UInt8) (hd : ∀ a ∈ as, c.dom a) :
    getMany c as.length (as.flatMap c.put ++ rest) = some (as, rest) := by
  induction as with
  | nil => rfl
  | cons a as ih =>
    have hcons := List.forall_mem_cons.mp hd
    simp only [List.flatMap_cons, List.append_assoc, List.length_cons, getMany,
      c.get_put a _ hcons.1, Option.bind_some, ih hcons.2, Option.map_some]

theorem put_getMany (c : Codec α) (n : ℕ) (bs : List UInt8) (as : List α) (rest : List UInt8)
    (h : getMany c n bs = some (as, rest)) :
    as.length = n ∧ (∀ a ∈ as, c.dom a) ∧ bs = as.flatMap c.put ++ rest := by
  induction n generalizing bs as with
  | zero =>
    cases h
    exact ⟨rfl, nofun, rfl⟩
  | succ n ih =>
    obtain ⟨⟨a, xs⟩, ha, h⟩ := Option.bind_eq_some_iff.mp h
    obtain ⟨⟨as', ys⟩, has, h⟩ := Option.map_eq_some_iff.mp h
    cases h
    obtain ⟨hda, rfl⟩ := c.put_get bs a xs ha
    obtain ⟨hlen, hdas, rfl⟩ := ih xs as' has
    refine ⟨by rw [List.length_cons, hlen], List.forall_mem_cons.mpr ⟨hda, hdas⟩, ?_⟩
    rw [List.flatMap_cons, List.append_assoc]

/-- A list behind the number of its words, which takes `w` bytes. -/
def counted (w : ℕ) (c : Codec α) : Codec (List α) where
  dom as := as.length < 256 ^ w ∧ ∀ a ∈ as, c.dom a
  put as := bigEndian w as.length ++ as.flatMap c.put
  get bs := ((nat w).get bs).bind fun p => getMany c p.1 p.2
  get_put as rest hd := by
    have hg : (nat w).get (bigEndian w as.length ++ (as.flatMap c.put ++ rest)) =
        some (as.length, as.flatMap c.put ++ rest) := (nat w).get_put as.length _ hd.1
    simp only [List.append_assoc, hg, Option.bind_some, getMany_put c as rest hd.2]
  put_get bs as rest h := by
    obtain ⟨⟨n, xs⟩, hn, hmany⟩ := Option.bind_eq_some_iff.mp h
    obtain ⟨hd, rfl⟩ := (nat w).put_get _ _ _ hn
    obtain ⟨rfl, hdas, rfl⟩ := put_getMany c n xs as rest hmany
    exact ⟨⟨hd, hdas⟩, by simp [nat]⟩

end Codec

end OpenMesh.Library.Wire
