import Mathlib.Data.List.Prime
import Mathlib.NumberTheory.LucasPrimality
import Secp.Number.Bits

/-!
# Ladders of primes

A number `p` is prime if some `a` has order `p - 1` modulo it, which takes one power of `a` for
every prime factor of `p - 1` to show. A ladder lists numbers with such an `a`, each with the prime
factors of its predecessor among the numbers before it. `Ladder.stands` is a test that evaluates,
and `Ladder.prime_of_stands` says that every number of a ladder that passes it is prime.
-/

namespace Secp.Number

/-- `a ^ n` modulo `m`, for an exponent of at most `bits` bits. -/
def powMod (m : Nat) : Nat → Nat → Nat → Nat
  | 0, _, _ => 1 % m
  | bits + 1, a, n => (if n % 2 = 1 then a else 1) * powMod m bits (a * a % m) (n / 2) % m

/-- Squaring and multiplying over enough bits gives the power. -/
theorem powMod_eq (m : Nat) {bits n : Nat} (h : n < 2 ^ bits) (a : Nat) :
    powMod m bits a n = a ^ n % m := by
  induction bits generalizing a n with
  | zero =>
    have hn : n = 0 := by simpa using h
    rw [hn, powMod, Nat.pow_zero]
  | succ bits ih =>
    have hlast : (if n % 2 = 1 then a else 1) = a ^ (n % 2) := by
      rcases Nat.mod_two_eq_zero_or_one n with hn | hn <;> simp [hn]
    have hsquare : (a * a % m) ^ (n / 2) % m = a ^ (2 * (n / 2)) % m := by
      rw [← Nat.pow_mod, Nat.pow_mul, Nat.pow_two]
    rw [powMod, ih (by rw [Nat.pow_succ] at h; omega), hlast, hsquare, Nat.mul_mod_mod,
      ← Nat.pow_add, Nat.mod_add_div]

/-- A power in the ring of integers modulo `m` is one exactly when its remainder is. -/
theorem natCast_pow_eq_one_iff {m : Nat} (hm : 1 < m) (a n : Nat) :
    (a : ZMod m) ^ n = 1 ↔ a ^ n % m = 1 := by
  rw [← Nat.cast_pow, ← Nat.cast_one, ZMod.natCast_eq_natCast_iff', Nat.mod_eq_of_lt hm]

/-- A number with an element of the order that primes alone have, and the primes that divide its
predecessor. -/
structure Rung where
  number : Nat
  root : Nat
  primes : List Nat

/-- The power of the root of a rung modulo its number. -/
def Rung.rootPow (r : Rung) (n : Nat) : Nat := powMod r.number (bitLength r.number) r.root n

/-- Whether the primes of a rung stand below it and are all that divide its predecessor, at most
eight times each, and whether the root has the order it should. -/
def Rung.stands (below : List Nat) (r : Rung) : Bool :=
  1 < r.number && r.primes.all below.contains && r.primes.prod ^ 8 % (r.number - 1) == 0 &&
    r.rootPow (r.number - 1) == 1 && r.primes.all fun q ↦ r.rootPow ((r.number - 1) / q) != 1

/-- A rung that stands on primes is a prime. -/
theorem Rung.prime_of_stands {below : List Nat} {r : Rung} (hbelow : ∀ q ∈ below, q.Prime)
    (h : r.stands below = true) : r.number.Prime := by
  simp only [Rung.stands, Bool.and_eq_true, decide_eq_true_eq, List.all_eq_true, beq_iff_eq,
    bne_iff_ne, List.contains_iff_mem] at h
  obtain ⟨⟨⟨⟨hone, hmem⟩, hdvd⟩, hroot⟩, horder⟩ := h
  have hpow {n : Nat} (hn : n ≤ r.number - 1) :
      (r.root : ZMod r.number) ^ n = 1 ↔ r.rootPow n = 1 := by
    have hbits := lt_two_pow_bitLength r.number
    rw [natCast_pow_eq_one_iff hone, Rung.rootPow, powMod_eq _ (by omega)]
  apply lucas_primality r.number r.root ((hpow (Nat.le_refl _)).mpr hroot)
  intro q hq hqdvd
  have hqprod : q ∣ r.primes.prod ^ 8 := hqdvd.trans (Nat.dvd_of_mod_eq_zero hdvd)
  obtain ⟨f, hf, hqf⟩ := (Prime.dvd_prod_iff hq.prime).mp (hq.dvd_of_dvd_pow hqprod)
  have heq : q = f := (Nat.prime_dvd_prime_iff_eq hq (hbelow f (hmem f hf))).mp hqf
  rw [ne_eq, hpow (Nat.div_le_self _ _), heq]
  exact horder f hf

/-- Rungs in order, each of which stands on those before it. -/
abbrev Ladder : Type := List Rung

/-- Whether every rung of a ladder stands on those before it. -/
def Ladder.stands : List Nat → Ladder → Bool
  | _, [] => true
  | below, r :: rest => r.stands below && stands (r.number :: below) rest

/-- Every number of a ladder that stands on primes is prime. -/
theorem Ladder.prime_of_stands {below : List Nat} {ladder : Ladder}
    (hbelow : ∀ q ∈ below, q.Prime) (h : Ladder.stands below ladder = true) :
    ∀ r ∈ ladder, r.number.Prime := by
  induction ladder generalizing below with
  | nil =>
    intro r hr
    cases hr
  | cons r rest ih =>
    simp only [Ladder.stands, Bool.and_eq_true] at h
    have hr := Rung.prime_of_stands hbelow h.1
    have hnext : ∀ q ∈ r.number :: below, q.Prime := by simpa using ⟨hr, hbelow⟩
    simpa using ⟨hr, ih hnext h.2⟩

end Secp.Number
