import Mathlib.Tactic.Ring
import Mathlib.Tactic.NormNum

/-!
# Fixed-width numbers as bytes

A little-endian machine stores a `w`-byte integer least significant byte first. `toBytes w n` is
that block of bytes and `ofBytes` is the number a block holds. Storing and loading are inverse to
each other: `ofBytes_toBytes` for every number below `256 ^ w`, `toBytes_ofBytes` for every block.

`BigEndian.ofBytes` is the number of a block with the most significant byte first.
-/

namespace LittleEndian

/-- The `w` bytes of `n`, least significant first; what does not fit in `w` bytes is cut off. -/
def toBytes : ℕ → ℕ → List UInt8
  | 0, _ => []
  | w + 1, n => UInt8.ofNat n :: toBytes w (n / 256)

/-- The number whose bytes, least significant first, are the given ones. -/
def ofBytes (bs : List UInt8) : ℕ :=
  bs.foldr (fun b n => b.toNat + 256 * n) 0

@[simp] theorem ofBytes_nil : ofBytes [] = 0 := rfl

@[simp] theorem ofBytes_cons (b : UInt8) (bs : List UInt8) :
    ofBytes (b :: bs) = b.toNat + 256 * ofBytes bs := rfl

theorem ofBytes_append (bs cs : List UInt8) :
    ofBytes (bs ++ cs) = ofBytes bs + 256 ^ bs.length * ofBytes cs := by
  induction bs with
  | nil => simp
  | cons b bs ih =>
    rw [List.cons_append, ofBytes_cons, ofBytes_cons, ih, List.length_cons]
    ring

@[simp] theorem length_toBytes (w n : ℕ) : (toBytes w n).length = w := by
  induction w generalizing n with
  | zero => rfl
  | succ w ih => rw [toBytes, List.length_cons, ih]

/-- A block of `w` bytes holds a number below `256 ^ w`. -/
theorem ofBytes_lt (bs : List UInt8) : ofBytes bs < 256 ^ bs.length := by
  induction bs with
  | nil => simp
  | cons b bs ih =>
    have hb : b.toNat < 256 := b.toNat_lt
    rw [ofBytes_cons, List.length_cons, pow_succ]
    omega

/-- Loading what was stored gives the number back, up to the width of the store. -/
theorem ofBytes_toBytes_mod (w n : ℕ) : ofBytes (toBytes w n) = n % 256 ^ w := by
  induction w generalizing n with
  | zero => simp [toBytes, Nat.mod_one]
  | succ w ih =>
    have hlow : (UInt8.ofNat n).toNat = n % 256 := by simp
    rw [toBytes, ofBytes_cons, ih, hlow, pow_succ', Nat.mod_mul]

theorem ofBytes_toBytes {w n : ℕ} (h : n < 256 ^ w) : ofBytes (toBytes w n) = n := by
  rw [ofBytes_toBytes_mod, Nat.mod_eq_of_lt h]

/-- Storing what was loaded gives the block back. -/
theorem toBytes_ofBytes (bs : List UInt8) : toBytes bs.length (ofBytes bs) = bs := by
  induction bs with
  | nil => rfl
  | cons b bs ih =>
    have hb : b.toNat < 256 := b.toNat_lt
    have hdiv : (b.toNat + 256 * ofBytes bs) / 256 = ofBytes bs := by omega
    have hlow : UInt8.ofNat (b.toNat + 256 * ofBytes bs) = b := by
      apply UInt8.toNat_inj.mp
      rw [UInt8.toNat_ofNat']
      omega
    rw [List.length_cons, toBytes, ofBytes_cons, hdiv, hlow, ih]

end LittleEndian

namespace BigEndian

/-- The number whose bytes, most significant first, are the given ones. -/
def ofBytes (bs : List UInt8) : ℕ := LittleEndian.ofBytes bs.reverse

@[simp] theorem ofBytes_nil : ofBytes [] = 0 := rfl

theorem ofBytes_append (bs cs : List UInt8) :
    ofBytes (bs ++ cs) = ofBytes bs * 256 ^ cs.length + ofBytes cs := by
  rw [ofBytes, List.reverse_append, LittleEndian.ofBytes_append, List.length_reverse, Nat.add_comm,
    Nat.mul_comm]
  rfl

theorem ofBytes_cons (b : UInt8) (bs : List UInt8) :
    ofBytes (b :: bs) = b.toNat * 256 ^ bs.length + ofBytes bs :=
  ofBytes_append [b] bs

theorem ofBytes_lt (bs : List UInt8) : ofBytes bs < 256 ^ bs.length := by
  rw [← List.length_reverse]
  exact LittleEndian.ofBytes_lt bs.reverse

end BigEndian
