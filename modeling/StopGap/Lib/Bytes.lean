import Mathlib.Algebra.GroupWithZero.Nat
import Mathlib.Data.Nat.Digits.Defs
import Mathlib.Tactic.Ring

/-!
# Little-endian numbers

Numbers in a buffer, their lowest byte first, without a sign or in two's complement. What is written
into a buffer is read back from where it stands (`HasAt.field`). A loop that shifts bytes into a
machine word, the highest first, leaves the number they stand for, as far as the word is wide enough
(`shiftIn_zero`, `shiftIn_signExtend`).
-/

namespace Bytes

/-- The `n` bytes from `off` on, if the buffer has them. -/
def slice (buf : List UInt8) (off n : ℕ) : Option (List UInt8) :=
  if off + n ≤ buf.length then some ((buf.drop off).take n) else none

/-- The number with these bytes. -/
def value (bs : List UInt8) : ℕ := Nat.ofDigits 256 (bs.map UInt8.toNat)

/-- The number with these bytes in two's complement. -/
def signed (bs : List UInt8) : ℤ :=
  if 2 * value bs < 256 ^ bs.length then value bs else value bs - 256 ^ bs.length

/-- The field of `n` bytes at `off`. -/
def field (buf : List UInt8) (off n : ℕ) : Option ℕ := (slice buf off n).map value

/-- Bytes shifted into `top`, the last one first. -/
def shiftIn {w : ℕ} (bs : List UInt8) (top : BitVec w) : BitVec w :=
  bs.foldr (fun b word => (word <<< 8) + b.toBitVec.setWidth w) top

/-- The `n` bytes of a number, what is above them cut off. -/
def ofNat : (n x : ℕ) → List UInt8
  | 0, _ => []
  | n + 1, x => UInt8.ofNat x :: ofNat n (x / 256)

section Slice

variable {buf pre bs post : List UInt8} {off n : ℕ}

theorem slice_append (h : bs.length = n) : slice (bs ++ post) 0 n = some bs := by
  subst h
  simp [slice]

theorem slice_append_right : slice (pre ++ buf) (pre.length + off) n = slice buf off n := by
  simp [slice, Nat.add_assoc, ← List.drop_drop]

theorem slice_eq_some (h : slice buf off n = some bs) : bs.length = n ∧ off + n ≤ buf.length := by
  unfold slice at h
  split_ifs at h with hle
  refine ⟨?_, hle⟩
  rw [← Option.some.inj h, List.length_take, List.length_drop]
  omega

theorem slice_add {bs' : List UInt8} {k : ℕ} (h : slice buf off n = some bs)
    (h' : slice buf (off + n) k = some bs') : slice buf off (n + k) = some (bs ++ bs') := by
  have hle := (slice_eq_some h').2
  unfold slice at h h' ⊢
  split_ifs at h h'
  rw [if_pos (by omega), ← Option.some.inj h, ← Option.some.inj h', ← List.drop_drop, List.take_add]

end Slice

section Value

@[simp] theorem value_nil : value [] = 0 := rfl

@[simp] theorem value_cons (b : UInt8) (bs : List UInt8) :
    value (b :: bs) = b.toNat + 256 * value bs := Nat.ofDigits_cons

theorem value_append (bs bs' : List UInt8) :
    value (bs ++ bs') = value bs + 256 ^ bs.length * value bs' := by
  simp only [value, List.map_append, Nat.ofDigits_append, List.length_map]

theorem value_lt (bs : List UInt8) : value bs < 256 ^ bs.length := by
  have := Nat.ofDigits_lt_base_pow_length (b := 256) (l := bs.map UInt8.toNat) (by decide)
    fun x hx => by
      obtain ⟨b, -, rfl⟩ := List.mem_map.1 hx
      exact b.toNat_lt
  rwa [List.length_map] at this

theorem value_ofNat : ∀ n x : ℕ, value (ofNat n x) = x % 256 ^ n
  | 0, x => by simp [ofNat, Nat.mod_one]
  | n + 1, x => by
    have hmul : x % (256 * 256 ^ n) = x % 256 + 256 * (x / 256 % 256 ^ n) := Nat.mod_mul
    rw [ofNat, value_cons, value_ofNat n, UInt8.toNat_ofNat', pow_succ' 256 n, hmul]

theorem ofNat_value : ∀ bs : List UInt8, ofNat bs.length (value bs) = bs
  | [] => rfl
  | b :: bs => by
    have hb := b.toNat_lt
    have hdiv : (b.toNat + 256 * value bs) / 256 = value bs := by omega
    have hmod : (b.toNat + 256 * value bs) % 256 = b.toNat := by omega
    rw [List.length_cons, ofNat, value_cons, hdiv, ofNat_value bs]
    congr 1
    exact UInt8.toNat_inj.1 ((UInt8.toNat_ofNat' ..).trans hmod)

end Value

/-! ### Bytes in place -/

/-- The buffer has these bytes from `off` on. -/
def HasAt (buf : List UInt8) (off : ℕ) (bs : List UInt8) : Prop :=
  ∃ pre post, pre.length = off ∧ buf = pre ++ (bs ++ post)

section HasAt

variable {buf bs bs' : List UInt8} {off n x : ℕ}

@[simp] theorem length_ofNat : ∀ n x : ℕ, (ofNat n x).length = n
  | 0, _ => rfl
  | n + 1, x => congrArg (· + 1) (length_ofNat n (x / 256))

theorem hasAt_self (buf : List UInt8) : HasAt buf 0 buf := ⟨[], [], rfl, by simp⟩

theorem hasAt_append :
    HasAt buf off (bs ++ bs') ↔ HasAt buf off bs ∧ HasAt buf (off + bs.length) bs' := by
  constructor
  · rintro ⟨pre, post, hpre, rfl⟩
    exact ⟨⟨pre, bs' ++ post, hpre, by simp⟩, ⟨pre ++ bs, post, by simp [hpre], by simp⟩⟩
  · rintro ⟨⟨pre, rest, hpre, hbuf⟩, ⟨pre', post, hpre', rfl⟩⟩
    rw [← List.append_assoc pre] at hbuf
    obtain ⟨rfl, -⟩ := List.append_inj hbuf (by simp [hpre, hpre'])
    exact ⟨pre, post, hpre, by simp⟩

theorem HasAt.drop (h : HasAt buf off bs) : ∃ post, buf.drop off = bs ++ post := by
  obtain ⟨pre, post, rfl, rfl⟩ := h
  exact ⟨post, by simp⟩

theorem HasAt.field (h : HasAt buf off (ofNat n x)) (hx : x < 256 ^ n) :
    field buf off n = some x := by
  obtain ⟨pre, post, rfl, rfl⟩ := h
  have hslice : slice (pre ++ (ofNat n x ++ post)) pre.length n = some (ofNat n x) :=
    slice_append_right.trans (slice_append (length_ofNat n x))
  rw [Bytes.field, hslice, Option.map_some, value_ofNat, Nat.mod_eq_of_lt hx]

end HasAt

section Shift

variable {w : ℕ}

theorem shiftIn_cons (b : UInt8) (bs : List UInt8) (top : BitVec w) :
    shiftIn (b :: bs) top = (shiftIn bs top <<< 8) + b.toBitVec.setWidth w := rfl

theorem shiftLeft_ofInt (t : ℤ) : BitVec.ofInt w t <<< 8 = BitVec.ofInt w (256 * t) := by
  have h : BitVec.twoPow w 8 = BitVec.ofInt w 256 := by
    apply BitVec.eq_of_toNat_eq
    simp [BitVec.toNat_twoPow]
  rw [BitVec.shiftLeft_eq_mul_twoPow, h, ← BitVec.ofInt_mul, mul_comm]

/-- What has been shifted in, with `t` above it. -/
theorem shiftIn_ofInt (t : ℤ) : ∀ bs : List UInt8,
    shiftIn bs (BitVec.ofInt w t) = BitVec.ofInt w (value bs + 256 ^ bs.length * t)
  | [] => by simp [shiftIn]
  | b :: bs => by
    have hb : b.toBitVec.setWidth w = BitVec.ofInt w (b.toNat : ℤ) := by
      rw [BitVec.ofInt_natCast, ← BitVec.ofNat_toNat, UInt8.toNat_toBitVec]
    rw [shiftIn_cons, shiftIn_ofInt t bs, hb, shiftLeft_ofInt, ← BitVec.ofInt_add, value_cons]
    congr 1
    push_cast [List.length_cons]
    ring

theorem shiftIn_zero (bs : List UInt8) : shiftIn bs 0#w = BitVec.ofNat w (value bs) := by
  have h := shiftIn_ofInt (w := w) 0 bs
  rw [mul_zero, add_zero, BitVec.ofInt_natCast] at h
  rw [← h]
  simp

theorem signed_append (bs : List UInt8) (b : UInt8) :
    signed (bs ++ [b]) = value bs + 256 ^ bs.length * b.toBitVec.toInt := by
  have hlt := value_lt bs
  have hpow : (256 : ℕ) ^ (bs.length + 1) = 256 * 256 ^ bs.length := pow_succ' 256 _
  rw [signed, value_append, List.length_append, List.length_singleton, value_cons, value_nil,
    mul_zero, add_zero, BitVec.toInt_eq_toNat_cond, UInt8.toNat_toBitVec]
  by_cases h : b.toNat < 128
  · have hle := Nat.mul_le_mul_left (256 ^ bs.length) (Nat.le_of_lt_succ h)
    rw [if_pos (by omega), if_pos (by omega)]
    push_cast
    rfl
  · have hle := Nat.mul_le_mul_left (256 ^ bs.length) (Nat.le_of_not_lt h)
    rw [if_neg (by omega), if_neg (by omega)]
    push_cast
    ring

/-- The first byte shifted in carries the sign. -/
theorem shiftIn_signExtend (bs : List UInt8) (b : UInt8) :
    shiftIn bs (b.toBitVec.signExtend w) = BitVec.ofInt w (signed (bs ++ [b])) := by
  rw [signed_append, ← shiftIn_ofInt]
  rfl

end Shift

end Bytes
