/-!
# Non-adjacent forms

A number is written with signed binary digits, least significant first, of which few are not
zero. With a window of `w` bits every digit other than zero is odd and less than `2 ^ (w - 1)` in
magnitude, and after such a digit at least `w - 1` zeros follow.
-/

namespace Secp.Number

-- Powers of numbers are core's, whichever others are in scope.
attribute [local instance(2000)] instPowNat

/-- The next digit: zero for an even number, otherwise the remainder modulo `2 ^ window` of least
magnitude. -/
def windowDigit (window n : Nat) : Int :=
  if n % 2 = 0 then 0
  else if 2 ^ (window - 1) ≤ n % 2 ^ window then (n % 2 ^ window : Nat) - (2 ^ window : Nat)
  else (n % 2 ^ window : Nat)

/-- Taking the digit off and halving makes a number smaller. -/
theorem windowDigit_rest_lt {window n : Nat} (hw : 2 ≤ window) (hn : n ≠ 0) :
    ((n - windowDigit window n) / 2).toNat < n := by
  obtain ⟨w, rfl⟩ : ∃ w, window = w + 2 := ⟨window - 2, by omega⟩
  have hpow : 2 ^ (w + 2) = 2 * 2 ^ (w + 1) := by rw [Nat.pow_succ]; omega
  have heven : 2 ^ (w + 1) = 2 * 2 ^ w := by rw [Nat.pow_succ]; omega
  have hle := Nat.mod_le n (2 ^ (w + 2))
  have hlt := Nat.mod_lt n (Nat.two_pow_pos (w + 2))
  have hodd : n % 2 ^ (w + 2) % 2 = n % 2 := Nat.mod_mod_of_dvd n ⟨2 ^ (w + 1), hpow⟩
  unfold windowDigit
  simp only [show w + 2 - 1 = w + 1 by omega]
  split
  · omega
  · split <;> omega

/-- The digits of a number, least significant first. A window below two bits gives none. -/
def nonAdjacentForm (window n : Nat) : List Int :=
  if _h : n = 0 ∨ window < 2 then []
  else windowDigit window n ::
    nonAdjacentForm window ((n - windowDigit window n) / 2).toNat
termination_by n
decreasing_by exact windowDigit_rest_lt (by omega) (by omega)

end Secp.Number
