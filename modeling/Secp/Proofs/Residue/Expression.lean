import Mathlib.Data.Option.NAry
import Secp.Proofs.Residue.Recast
import Secp.Proofs.Residue.SquareRoot

/-!
# Expressions over residues

An expression starts from integers and applies the operations on residues, inverses and square roots
among them, to what it has. It may have no value, where an inverse or a root is missing. Its value
is below the modulus and stands for what the expression means in the ring of integers modulo that,
and it is the same however the modulus reduces.
-/

namespace Secp.Residue

/-- An expression over residues of one modulus. -/
inductive Expression where
  | reduce (x : Int)
  | small (n : Nat)
  | zero
  | one
  | add (e f : Expression)
  | sub (e f : Expression)
  | neg (e : Expression)
  | mul (e f : Expression)
  | sqr (e : Expression)
  | mulSmall (e : Expression) (n : Nat)
  | pow (e : Expression) (exponent : Nat)
  | inverse (e : Expression)
  | root (e : Expression)
  deriving DecidableEq, Repr

namespace Expression

/-- The value of an expression for a modulus, computed step by step on residues. -/
def eval (m : Modulus) : Expression → Option (Residue m)
  | reduce x => some (ofInt x)
  | small n => some (ofNat n)
  | zero => some Residue.zero
  | one => some Residue.one
  | add e f => Option.map₂ (· + ·) (e.eval m) (f.eval m)
  | sub e f => Option.map₂ (· - ·) (e.eval m) (f.eval m)
  | neg e => (e.eval m).map (-·)
  | mul e f => Option.map₂ (· * ·) (e.eval m) (f.eval m)
  | sqr e => (e.eval m).map Residue.sqr
  | mulSmall e n => (e.eval m).map (Residue.mulSmall · n)
  | pow e exponent => (e.eval m).map (Residue.pow · exponent)
  | inverse e => (e.eval m).bind Residue.inverse?
  | root e => (e.eval m).bind Residue.sqrt?

/-- What an expression means in the ring of integers modulo a number: an inverse gives one when
multiplied by its operand, and a root gives its operand when squared. -/
inductive Means (n : Nat) : Expression → ZMod n → Prop where
  | reduce (x : Int) : Means n (reduce x) x
  | small (k : Nat) : Means n (small k) k
  | zero : Means n zero 0
  | one : Means n one 1
  | add {e f : Expression} {x y : ZMod n} (he : Means n e x) (hf : Means n f y) :
    Means n (add e f) (x + y)
  | sub {e f : Expression} {x y : ZMod n} (he : Means n e x) (hf : Means n f y) :
    Means n (sub e f) (x - y)
  | neg {e : Expression} {x : ZMod n} (he : Means n e x) : Means n (neg e) (-x)
  | mul {e f : Expression} {x y : ZMod n} (he : Means n e x) (hf : Means n f y) :
    Means n (mul e f) (x * y)
  | sqr {e : Expression} {x : ZMod n} (he : Means n e x) : Means n (sqr e) (x ^ 2)
  | mulSmall {e : Expression} {x : ZMod n} (he : Means n e x) (k : Nat) :
    Means n (mulSmall e k) (x * k)
  | pow {e : Expression} {x : ZMod n} (he : Means n e x) (exponent : Nat) :
    Means n (pow e exponent) (x ^ exponent)
  | inverse {e : Expression} {x y : ZMod n} (he : Means n e x) (hy : x * y = 1) :
    Means n (inverse e) y
  | root {e : Expression} {x y : ZMod n} (he : Means n e x) (hy : y ^ 2 = x) : Means n (root e) y

/-- Whether an expression has neither inverses nor roots. -/
def isPolynomial : Expression → Bool
  | reduce _ | small _ | zero | one => true
  | add e f | sub e f | mul e f => e.isPolynomial && f.isPolynomial
  | neg e | sqr e | mulSmall e _ | pow e _ => e.isPolynomial
  | inverse _ | root _ => false

/-- The value of an expression stands for what the expression means. -/
theorem means_of_eval {m : Modulus} {e : Expression} {a : Residue m} (h : e.eval m = some a) :
    e.Means m.value a.toZMod := by
  induction e generalizing a with
  | reduce x =>
    cases h
    rw [toZMod_ofInt]
    exact .reduce x
  | small n =>
    cases h
    rw [toZMod_ofNat]
    exact .small n
  | zero =>
    cases h
    rw [toZMod_zero]
    exact .zero
  | one =>
    cases h
    rw [toZMod_one]
    exact .one
  | add e f ihe ihf =>
    obtain ⟨b, c, hb, hc, rfl⟩ := Option.map₂_eq_some_iff.mp h
    rw [toZMod_add]
    exact .add (ihe hb) (ihf hc)
  | sub e f ihe ihf =>
    obtain ⟨b, c, hb, hc, rfl⟩ := Option.map₂_eq_some_iff.mp h
    rw [toZMod_sub]
    exact .sub (ihe hb) (ihf hc)
  | neg e ih =>
    obtain ⟨b, hb, rfl⟩ := Option.map_eq_some_iff.mp h
    rw [toZMod_neg]
    exact .neg (ih hb)
  | mul e f ihe ihf =>
    obtain ⟨b, c, hb, hc, rfl⟩ := Option.map₂_eq_some_iff.mp h
    rw [toZMod_mul]
    exact .mul (ihe hb) (ihf hc)
  | sqr e ih =>
    obtain ⟨b, hb, rfl⟩ := Option.map_eq_some_iff.mp h
    rw [toZMod_sqr]
    exact .sqr (ih hb)
  | mulSmall e n ih =>
    obtain ⟨b, hb, rfl⟩ := Option.map_eq_some_iff.mp h
    rw [toZMod_mulSmall]
    exact .mulSmall (ih hb) n
  | pow e exponent ih =>
    obtain ⟨b, hb, rfl⟩ := Option.map_eq_some_iff.mp h
    rw [toZMod_pow]
    exact .pow (ih hb) exponent
  | inverse e ih =>
    obtain ⟨b, hb, ha⟩ := Option.bind_eq_some_iff.mp h
    exact .inverse (ih hb) (mul_of_inverse? ha)
  | root e ih =>
    obtain ⟨b, hb, ha⟩ := Option.bind_eq_some_iff.mp h
    exact .root (ih hb) (sq_of_sqrt? ha)

/-- A polynomial expression always has a value. -/
theorem exists_eval {e : Expression} (h : e.isPolynomial = true) (m : Modulus) :
    ∃ a, e.eval m = some a := by
  induction e with
  | reduce x => exact ⟨_, rfl⟩
  | small n => exact ⟨_, rfl⟩
  | zero => exact ⟨_, rfl⟩
  | one => exact ⟨_, rfl⟩
  | add e f ihe ihf | sub e f ihe ihf | mul e f ihe ihf =>
    obtain ⟨he, hf⟩ := Bool.and_eq_true_iff.mp h
    obtain ⟨a, ha⟩ := ihe he
    obtain ⟨b, hb⟩ := ihf hf
    rw [eval, ha, hb]
    exact ⟨_, rfl⟩
  | neg e ih | sqr e ih | mulSmall e n ih | pow e exponent ih =>
    obtain ⟨a, ha⟩ := ih h
    rw [eval, ha]
    exact ⟨_, rfl⟩
  | inverse e ih => cases h
  | root e ih => cases h

/-- Moduli of equal value give an expression the same value, or none at all. -/
theorem recast_eval {m m' : Modulus} (hvalue : m.value = m'.value) (e : Expression) :
    (e.eval m).map (recast hvalue) = e.eval m' := by
  induction e with
  | reduce x => rw [eval, eval, Option.map_some, recast_ofInt]
  | small n => rw [eval, eval, Option.map_some, recast_ofNat]
  | zero => rw [eval, eval, Option.map_some, recast_zero]
  | one => rw [eval, eval, Option.map_some, recast_one]
  | add e f ihe ihf =>
    rw [eval, eval, ← ihe, ← ihf]
    exact Option.map_map₂_distrib (recast_add hvalue)
  | sub e f ihe ihf =>
    rw [eval, eval, ← ihe, ← ihf]
    exact Option.map_map₂_distrib (recast_sub hvalue)
  | mul e f ihe ihf =>
    rw [eval, eval, ← ihe, ← ihf]
    exact Option.map_map₂_distrib (recast_mul hvalue)
  | neg e ih | sqr e ih | mulSmall e n ih | pow e exponent ih =>
    rw [eval, eval, ← ih, Option.map_map, Option.map_map]
    congr 1
    funext a
    simp only [Function.comp_apply, recast_neg, recast_sqr, recast_mulSmall, recast_pow]
  | inverse e ih | root e ih =>
    rw [eval, eval, ← ih, Option.map_bind, Option.bind_map]
    congr 1
    funext a
    simp only [Function.comp_apply, recast_inverse?, recast_sqrt?]

end Expression

/-- Arithmetic on residues is that of the ring of integers modulo the modulus. Every operation gives
the remainder of what it gives on integers; every value of an expression is below the modulus and
stands for what the expression means, and an expression without inverses and roots has one; and
moduli of equal value give the same representatives, whether they reduce in Barrett's way or by
folding. -/
theorem arithmetic_is_modular (m : Modulus) :
    (∀ x : Int, ((ofInt x : Residue m).val : Int) = x % m.value) ∧
    (∀ a b : Residue m, ((a + b).val : Int) = (a.val + b.val : Int) % m.value ∧
      ((a - b).val : Int) = (a.val - b.val : Int) % m.value ∧
      ((a * b).val : Int) = (a.val * b.val : Int) % m.value) ∧
    (∀ a : Residue m, ((-a).val : Int) = (-a.val : Int) % m.value ∧
      (a.sqr.val : Int) = (a.val ^ 2 : Int) % m.value ∧
      ∀ n, ((a.mulSmall n).val : Int) = (a.val * n : Int) % m.value) ∧
    (∀ (e : Expression) (a : Residue m), e.eval m = some a →
      a.val < m.value ∧ e.Means m.value a.toZMod) ∧
    (∀ e : Expression, e.isPolynomial = true → ∃ a, e.eval m = some a) ∧
    ∀ m' : Modulus, m.value = m'.value → ∀ e : Expression,
      (e.eval m).map Residue.val = (e.eval m').map Residue.val := by
  refine ⟨m.reduceInt_eq_emod, fun a b ↦ ⟨val_add a b, val_sub a b, val_mul a b⟩,
    fun a ↦ ⟨val_neg a, val_sqr a, val_mulSmall a⟩,
    fun e a he ↦ ⟨a.val_lt, Expression.means_of_eval he⟩,
    fun e he ↦ Expression.exists_eval he m, fun m' hvalue e ↦ ?_⟩
  rw [← Expression.recast_eval hvalue e, Option.map_map]
  rfl

/-- The inverse of minus two, both by folding and in Barrett's way. -/
theorem arithmetic_is_modular_sparse :
    let e : Expression := .sub (.small 1) (.reduce 3)
    let barrett := Modulus.barrett sparsePrime (by decide)
    Modulus.sparse.value = barrett.value ∧ e.isPolynomial = true ∧
      (∃ b, e.eval Modulus.sparse = some b) ∧
      ∃ a, e.inverse.eval Modulus.sparse = some a ∧ a.val = (sparsePrime - 1) / 2 ∧
        e.inverse.Means sparsePrime a.toZMod ∧
        (e.inverse.eval barrett).map val = some ((sparsePrime - 1) / 2) := by
  intro e barrett
  obtain ⟨-, -, -, hmeans, hexists, hsame⟩ := arithmetic_is_modular Modulus.sparse
  have hvalue : Modulus.sparse.value = barrett.value := rfl
  have hinverse : (e.inverse.eval Modulus.sparse).map val = some ((sparsePrime - 1) / 2) := by
    decide +kernel
  obtain ⟨a, ha, hval⟩ := Option.map_eq_some_iff.mp hinverse
  refine ⟨hvalue, rfl, hexists e rfl, a, ha, hval, (hmeans _ a ha).2, ?_⟩
  rw [← hsame barrett hvalue, hinverse]

end Secp.Residue
