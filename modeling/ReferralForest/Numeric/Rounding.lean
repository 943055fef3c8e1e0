/-!
# Rounding a quotient

Decimals and doubles both hold the exact result of an operation rounded to a
nearest multiple of some unit, a tie going to the even multiple. Both use the
one quotient below.
-/

namespace ReferralForest.Numeric

def divHalfEven (n d : Nat) : Nat :=
  let q := n / d
  let twice := 2 * (n % d)
  if twice < d then q else if d < twice then q + 1 else q + q % 2

theorem divHalfEven_near (n d : Nat) (hd : 0 < d) :
    2 * (d * divHalfEven n d) ≤ 2 * n + d ∧ 2 * n ≤ 2 * (d * divHalfEven n d) + d := by
  have h := Nat.div_add_mod n d
  have hm := Nat.mod_lt n hd
  simp only [divHalfEven]
  split
  · omega
  · split
    · rw [Nat.mul_add]; omega
    · rcases Nat.mod_two_eq_zero_or_one (n / d) with hz | hz <;> rw [hz]
      · simp only [Nat.add_zero]; omega
      · rw [Nat.mul_add]; omega

theorem divHalfEven_mul (q d : Nat) (hd : 0 < d) : divHalfEven (q * d) d = q := by
  simp [divHalfEven, Nat.mul_div_cancel q hd, hd]

end ReferralForest.Numeric
