import Mathlib

/-!
# Numbers in a fixed number of bytes

The little-endian and the big-endian bytes of a number, what decoding them gives, and that the
big-endian bytes compare as the numbers do.
-/

set_option autoImplicit false

namespace Tagdata.Library

/-- The `w` little-endian bytes of a number. -/
def leBytes : Nat → Nat → List UInt8
  | 0, _ => []
  | w + 1, n => UInt8.ofNat (n % 256) :: leBytes w (n / 256)

/-- The number with the given little-endian bytes. -/
def ofLeBytes : List UInt8 → Nat
  | [] => 0
  | b :: bs => b.toNat + 256 * ofLeBytes bs

/-- The `w` big-endian bytes of a number. -/
def beBytes (w n : Nat) : List UInt8 := (leBytes w n).reverse

/-- The number with the given big-endian bytes. -/
def ofBeBytes (bs : List UInt8) : Nat := ofLeBytes bs.reverse

@[simp] theorem length_leBytes (w n : Nat) : (leBytes w n).length = w := by
  induction w generalizing n with
  | zero => rfl
  | succ w ih => simp [leBytes, ih]

@[simp] theorem length_beBytes (w n : Nat) : (beBytes w n).length = w := by
  simp [beBytes]

theorem ofLeBytes_leBytes {w n : Nat} (h : n < 256 ^ w) : ofLeBytes (leBytes w n) = n := by
  induction w generalizing n with
  | zero =>
    have hzero : n = 0 := by simpa using h
    simp [leBytes, ofLeBytes, hzero]
  | succ w ih =>
    have hrest : n / 256 < 256 ^ w := by
      rw [Nat.div_lt_iff_lt_mul (by norm_num), ← pow_succ]
      exact h
    have hdigit : (UInt8.ofNat (n % 256)).toNat = n % 256 := by
      rw [UInt8.toNat_ofNat']
      omega
    rw [leBytes, ofLeBytes, ih hrest, hdigit]
    omega

theorem ofBeBytes_beBytes {w n : Nat} (h : n < 256 ^ w) : ofBeBytes (beBytes w n) = n := by
  rw [ofBeBytes, beBytes, List.reverse_reverse]
  exact ofLeBytes_leBytes h

theorem ofLeBytes_lt (bs : List UInt8) : ofLeBytes bs < 256 ^ bs.length := by
  induction bs with
  | nil => simp [ofLeBytes]
  | cons b bs ih =>
    have hb : b.toNat < 256 := b.toNat_lt
    rw [ofLeBytes, List.length_cons, pow_succ]
    omega

theorem leBytes_ofLeBytes (bs : List UInt8) : leBytes bs.length (ofLeBytes bs) = bs := by
  induction bs with
  | nil => rfl
  | cons b bs ih =>
    have hb : b.toNat < 256 := b.toNat_lt
    have hmod : (b.toNat + 256 * ofLeBytes bs) % 256 = b.toNat := by omega
    have hdiv : (b.toNat + 256 * ofLeBytes bs) / 256 = ofLeBytes bs := by omega
    rw [List.length_cons, leBytes, ofLeBytes, hmod, hdiv, ih, UInt8.ofNat_toNat]

theorem ofBeBytes_lt (bs : List UInt8) : ofBeBytes bs < 256 ^ bs.length := by
  have h := ofLeBytes_lt bs.reverse
  rwa [List.length_reverse] at h

theorem beBytes_ofBeBytes (bs : List UInt8) : beBytes bs.length (ofBeBytes bs) = bs := by
  have h := leBytes_ofLeBytes bs.reverse
  rw [List.length_reverse] at h
  rw [beBytes, ofBeBytes, h, List.reverse_reverse]

/-- The last little-endian byte is the first big-endian one. -/
theorem leBytes_succ (w n : Nat) :
    leBytes (w + 1) n = leBytes w n ++ [UInt8.ofNat (n / 256 ^ w % 256)] := by
  induction w generalizing n with
  | zero => simp [leBytes]
  | succ w ih =>
    rw [leBytes, ih, leBytes, List.cons_append, Nat.div_div_eq_div_mul, ← pow_succ']

theorem beBytes_succ (w n : Nat) :
    beBytes (w + 1) n = UInt8.ofNat (n / 256 ^ w % 256) :: beBytes w n := by
  rw [beBytes, leBytes_succ, List.reverse_append, beBytes]
  rfl

/-- Only the lower digits count. -/
theorem leBytes_mod (w n : Nat) : leBytes w (n % 256 ^ w) = leBytes w n := by
  induction w generalizing n with
  | zero => rfl
  | succ w ih =>
    have hdiv : n % 256 ^ (w + 1) / 256 = n / 256 % 256 ^ w := by
      rw [pow_succ', Nat.mod_mul_right_div_self]
    have hmod : n % 256 ^ (w + 1) % 256 = n % 256 :=
      Nat.mod_mod_of_dvd n (dvd_pow_self 256 (Nat.succ_ne_zero w))
    rw [leBytes, leBytes, hdiv, hmod, ih]

/-- Big-endian bytes are ordered as the numbers. -/
theorem beBytes_lt {w m n : Nat} (hmn : m < n) (hn : n < 256 ^ w) :
    beBytes w m < beBytes w n := by
  induction w generalizing m n with
  | zero =>
    have hzero : n = 0 := by simpa using hn
    omega
  | succ w ih =>
    have hpos : 0 < 256 ^ w := Nat.pow_pos (by norm_num)
    have htop : n / 256 ^ w < 256 := by
      rw [Nat.div_lt_iff_lt_mul hpos, ← pow_succ']
      exact hn
    have hle : m / 256 ^ w ≤ n / 256 ^ w := Nat.div_le_div_right hmn.le
    rw [beBytes_succ, beBytes_succ, Nat.mod_eq_of_lt htop,
      Nat.mod_eq_of_lt (lt_of_le_of_lt hle htop), List.cons_lt_cons_iff]
    rcases Nat.lt_or_eq_of_le hle with hlt | heq
    · left
      rw [UInt8.lt_iff_toNat_lt, UInt8.toNat_ofNat', UInt8.toNat_ofNat',
        Nat.mod_eq_of_lt (by omega), Nat.mod_eq_of_lt (by omega)]
      exact hlt
    · right
      refine ⟨by rw [heq], ?_⟩
      have hrest : m % 256 ^ w < n % 256 ^ w := by
        have hm := Nat.div_add_mod m (256 ^ w)
        have hn' := Nat.div_add_mod n (256 ^ w)
        rw [heq] at hm
        omega
      have hstep := ih hrest (Nat.mod_lt n hpos)
      simpa only [beBytes, leBytes_mod] using hstep

/-! ## The top bit -/

/-- Flipping a bit above a number adds its place value. -/
theorem xor_two_pow_of_lt {n w : Nat} (h : n < 2 ^ w) : n ^^^ 2 ^ w = n + 2 ^ w := by
  refine Nat.eq_of_testBit_eq fun i => ?_
  rw [Nat.testBit_xor, Nat.testBit_two_pow, Nat.add_comm]
  rcases Nat.lt_trichotomy i w with hlt | rfl | hgt
  · rw [Nat.testBit_two_pow_add_gt hlt]
    simp [hlt.ne']
  · rw [Nat.testBit_two_pow_add_eq]
    simp
  · have hsum : (2 ^ w + n).testBit i = false := by
      apply Nat.testBit_lt_two_pow
      calc 2 ^ w + n < 2 ^ (w + 1) := by rw [pow_succ]; omega
        _ ≤ 2 ^ i := Nat.pow_le_pow_right (by omega) hgt
    have hself : n.testBit i = false :=
      Nat.testBit_lt_two_pow (h.trans_le (Nat.pow_le_pow_right (by omega) hgt.le))
    rw [hsum, hself]
    simp [hgt.ne]

/-- Flipping the top bit of a number subtracts its place value. -/
theorem xor_two_pow_of_ge {n w : Nat} (h : 2 ^ w ≤ n) (h' : n < 2 ^ (w + 1)) :
    n ^^^ 2 ^ w = n - 2 ^ w := by
  have hlt : n - 2 ^ w < 2 ^ w := by
    rw [pow_succ] at h'
    omega
  have hsum : (n - 2 ^ w) ^^^ 2 ^ w = n := by
    rw [xor_two_pow_of_lt hlt]
    omega
  calc n ^^^ 2 ^ w = (n - 2 ^ w) ^^^ 2 ^ w ^^^ 2 ^ w := by rw [hsum]
    _ = n - 2 ^ w := by rw [Nat.xor_assoc, Nat.xor_self, Nat.xor_zero]

end Tagdata.Library
