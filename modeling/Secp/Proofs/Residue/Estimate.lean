import Mathlib.Logic.Function.Iterate
import Secp.Proofs.Residue.Reduction

/-!
# How close the fast reductions come

Folding is a row of steps, of which only the last ends below `2 ^ 256`. Barrett's quotient of a
number of up to twice the bits of the modulus is the true one or at most two less: cutting the
number to its leading bits, cutting the reciprocal and cutting their product each lose less than
one. So both ways of reducing agree with division, and Barrett's subtracts at most twice.
-/

namespace Secp.Modulus

/-- One step of folding: the bits above 256 are moved down. -/
def foldStep (x : Nat) : Nat := x % 2 ^ 256 + x / 2 ^ 256 * foldConstant

/-- Folding a number takes `n` steps: before each of them there are bits above 256, and none
after the last. -/
structure FoldsIn (n x : Nat) : Prop where
  result : foldStep^[n] x = fold x
  done : foldStep^[n] x < 2 ^ 256
  pending : ∀ k < n, 2 ^ 256 ≤ foldStep^[k] x

/-- A number with bits above 256 takes one step more than what the step leaves. -/
theorem FoldsIn.succ {n x : Nat} (hx : 2 ^ 256 ≤ x) (h : FoldsIn n (foldStep x)) :
    FoldsIn (n + 1) x := by
  have hfold : fold x = fold (foldStep x) := by
    rw [fold, dif_neg (Nat.not_lt.mpr hx)]
    rfl
  constructor
  · rw [Function.iterate_succ_apply, h.result, hfold]
  · rw [Function.iterate_succ_apply]
    exact h.done
  · intro k hk
    cases k with
    | zero => exact hx
    | succ k =>
      rw [Function.iterate_succ_apply]
      exact h.pending k (Nat.lt_of_succ_lt_succ hk)

/-- Folding ends, whatever the number. -/
theorem exists_foldsIn (x : Nat) : ∃ n, FoldsIn n x := by
  fun_induction fold x with
  | case1 x h =>
    have hfold : fold x = x := by rw [fold, dif_pos h]
    exact ⟨0, hfold.symm, h, fun k hk ↦ absurd hk (Nat.not_lt_zero k)⟩
  | case2 x h ih =>
    obtain ⟨n, hn⟩ := ih
    exact ⟨n + 1, hn.succ (Nat.le_of_not_lt h)⟩

/-- The leading bits of a number, taken back to their place, are less than two moduli above what
Barrett's quotient accounts for. -/
theorem leading_lt_quotient_add_two {m bits x : Nat} (hm : 0 < m) (hbits : 1 ≤ bits)
    (hx : x < 4 ^ bits) :
    x / 2 ^ (bits - 1) * 2 ^ (bits - 1) < (quotient bits (4 ^ bits / m) x + 2) * m := by
  have hpow := two_pow_mul_two_pow hbits
  have hscale : 0 < 2 ^ (bits + 1) := Nat.two_pow_pos _
  have hquotient : x / 2 ^ (bits - 1) * (4 ^ bits / m) <
      2 ^ (bits + 1) * (quotient bits (4 ^ bits / m) x + 1) := Nat.lt_mul_div_succ _ hscale
  have hreciprocal : 4 ^ bits < m * (4 ^ bits / m + 1) := Nat.lt_mul_div_succ _ hm
  have hleading : x / 2 ^ (bits - 1) < 2 ^ (bits + 1) :=
    Nat.div_lt_of_lt_mul (by rwa [Nat.mul_comm, hpow])
  generalize quotient bits (4 ^ bits / m) x = q at hquotient ⊢
  generalize x / 2 ^ (bits - 1) = a at hquotient hleading ⊢
  generalize 4 ^ bits / m = c at hquotient hreciprocal
  apply Nat.lt_of_mul_lt_mul_left (a := 2 ^ (bits + 1))
  calc 2 ^ (bits + 1) * (a * 2 ^ (bits - 1))
      = a * 4 ^ bits := by rw [← hpow]; ring
    _ ≤ a * (m * (c + 1)) := Nat.mul_le_mul_left a hreciprocal.le
    _ = a * c * m + a * m := by ring
    _ < 2 ^ (bits + 1) * (q + 1) * m + 2 ^ (bits + 1) * m :=
        Nat.add_lt_add (Nat.mul_lt_mul_of_pos_right hquotient hm)
          (Nat.mul_lt_mul_of_pos_right hleading hm)
    _ = 2 ^ (bits + 1) * ((q + 2) * m) := by ring

/-- Barrett's quotient of a number of up to twice the bits of the modulus falls short of the true
one by at most two. -/
theorem div_le_quotient_add_two {m x : Nat} (hm : 0 < m)
    (hx : x < 2 ^ (2 * Number.bitLength m)) :
    x / m ≤ quotient (Number.bitLength m) (4 ^ Number.bitLength m / m) x + 2 := by
  have hbits : 1 ≤ Number.bitLength m := (Number.lt_bitLength_iff m 0).mpr hm
  have htop : 2 ^ (Number.bitLength m - 1) ≤ m :=
    (Number.lt_bitLength_iff m _).mp (Nat.sub_lt hbits Nat.one_pos)
  rw [Nat.pow_mul] at hx
  have hleading := leading_lt_quotient_add_two hm hbits hx
  have hsplit := Nat.div_add_mod' x (2 ^ (Number.bitLength m - 1))
  have hrest := Nat.mod_lt x (Nat.two_pow_pos (Number.bitLength m - 1))
  generalize quotient _ _ x = q at hleading ⊢
  have hlt : x < (q + 3) * m := by
    rw [show q + 3 = q + 2 + 1 from rfl, Nat.succ_mul]
    omega
  exact Nat.le_of_lt_succ ((Nat.div_lt_iff_lt_mul hm).mpr hlt)

/-- Both ways of reducing agree with division on every integer: folding for the sparse prime, which
ends, and Barrett's way for every modulus of at least two, whose quotient is at most the true one
and falls short of it by at most two. -/
theorem reductions_divide :
    (∀ x : Int, (sparse.reduceInt x : Int) = x % sparsePrime) ∧
      (∀ x : Nat, ∃ n, FoldsIn n x) ∧
      ∀ m : Int, 2 ≤ m → ∃ M : Modulus, ofInt m = .ok M ∧ (M.value : Int) = m ∧
        (∀ x : Int, (M.reduceInt x : Int) = x % m ∧ M.reduceInt x < M.value) ∧
        ∃ bits reciprocal hbits hreciprocal,
          M.reduction = .barrett bits reciprocal hbits hreciprocal ∧
          ∀ x < 2 ^ (2 * bits), quotient bits reciprocal x ≤ x / M.value ∧
            x / M.value ≤ quotient bits reciprocal x + 2 := by
  refine ⟨reduceInt_eq_emod sparse, exists_foldsIn, ?_⟩
  intro m hm
  have htwo : 2 ≤ m.toNat := by omega
  have hpos : 0 < m.toNat := by omega
  have hvalue : (m.toNat : Int) = m := by omega
  refine ⟨barrett m.toNat htwo, dif_pos htwo, hvalue, ?_, _, _, rfl, rfl, rfl, ?_⟩
  · intro x
    refine ⟨?_, reduceInt_lt _ x⟩
    rw [reduceInt_eq_emod]
    exact congrArg (x % ·) hvalue
  · intro x hx
    have hbits : 1 ≤ Number.bitLength m.toNat := (Number.lt_bitLength_iff _ 0).mpr hpos
    exact ⟨(Nat.le_div_iff_mul_le hpos).mpr (quotient_mul_le hbits x),
      div_le_quotient_add_two hpos hx⟩

/-- Eight, a power of two, is a modulus, and reducing by it agrees with division. -/
theorem reductions_divide_eight :
    (2 : Int) ≤ 8 ∧ ∃ M : Modulus, ofInt 8 = .ok M ∧ (M.value : Int) = 8 ∧
      ∀ x : Int, (M.reduceInt x : Int) = x % 8 := by
  have htwo : (2 : Int) ≤ 8 := by decide
  obtain ⟨M, hM, hvalue, hreduce, -⟩ := reductions_divide.2.2 8 htwo
  exact ⟨htwo, M, hM, hvalue, fun x ↦ (hreduce x).1⟩

end Secp.Modulus
