import Mathlib.Algebra.GroupWithZero.Nat
import Mathlib.Tactic.Common

/-!
# Ranks

Numbers that fall where a lexicographic order does: a leading number with a bounded one after it,
and a sequence of bits read as a binary number.
-/

namespace Rank

theorem lex_lt {a a' b b' n : ℕ} (h : a' < a) (hb : b' < n) : a' * n + b' < a * n + b := by
  have : (a' + 1) * n ≤ a * n := Nat.mul_le_mul_right n h
  rw [Nat.add_mul, Nat.one_mul] at this
  omega

theorem lex_lt_of_le {a a' b b' n : ℕ} (h : a' ≤ a) (hb : b' < b) : a' * n + b' < a * n + b := by
  have := Nat.mul_le_mul_right n h
  omega

/-- The number whose `n` binary digits from the highest one on tell where `u` is false. -/
def code (u : ℕ → Bool) : ℕ → ℕ
  | 0 => 0
  | n + 1 => 2 * code u n + if u n then 0 else 1

theorem code_lt_two_pow (u : ℕ → Bool) : ∀ n, code u n < 2 ^ n
  | 0 => by simp [code]
  | n + 1 => by
    have ih := code_lt_two_pow u n
    rw [code, Nat.pow_succ]
    split_ifs <;> omega

theorem code_congr {u u' : ℕ → Bool} : ∀ {n : ℕ}, (∀ c < n, u' c = u c) → code u' n = code u n
  | 0, _ => rfl
  | n + 1, h => by
    rw [code, code, h n (Nat.lt_succ_self n), code_congr fun c hc => h c (Nat.lt_succ_of_lt hc)]

/-- The first digit that differs decides. -/
theorem code_lt_code {u u' : ℕ → Bool} {k : ℕ} (hbelow : ∀ c < k, u' c = u c) (hk : u k = false)
    (hk' : u' k = true) : ∀ {n : ℕ}, k < n → code u' n < code u n
  | n + 1, hn => by
    rw [code, code]
    rcases Nat.lt_succ_iff_lt_or_eq.1 hn with hlt | rfl
    · have ih := code_lt_code hbelow hk hk' hlt
      split_ifs <;> omega
    · rw [code_congr hbelow, hk, hk']
      simp

end Rank
