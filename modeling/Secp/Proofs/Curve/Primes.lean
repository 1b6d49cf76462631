import Secp.Curve.Parameters
import Secp.Proofs.Number.PrimeLadder

/-!
# The two primes of the curve

The sparse prime, modulo which coordinates are taken, and the order of the group are both prime.
One ladder of primes reaches both.
-/

namespace Secp.Curve

open Number (Rung Ladder)

/-- The rungs below the order and the sparse prime. -/
def lowerRungs : Ladder :=
  [⟨3, 2, [2]⟩, ⟨5, 2, [2]⟩, ⟨7, 3, [2, 3]⟩, ⟨11, 2, [2, 5]⟩, ⟨13, 2, [2, 3]⟩, ⟨17, 3, [2]⟩,
    ⟨19, 2, [2, 3]⟩, ⟨23, 5, [2, 11]⟩, ⟨29, 2, [2, 7]⟩, ⟨31, 3, [2, 3, 5]⟩, ⟨37, 2, [2, 3]⟩,
    ⟨41, 6, [2, 5]⟩, ⟨53, 2, [2, 13]⟩, ⟨59, 2, [2, 29]⟩, ⟨67, 2, [2, 3, 11]⟩, ⟨73, 5, [2, 3]⟩,
    ⟨83, 2, [2, 41]⟩, ⟨97, 5, [2, 3]⟩, ⟨101, 2, [2, 5]⟩, ⟨103, 5, [2, 3, 17]⟩, ⟨109, 6, [2, 3]⟩,
    ⟨113, 3, [2, 7]⟩, ⟨131, 2, [2, 5, 13]⟩, ⟨149, 2, [2, 37]⟩, ⟨199, 3, [2, 3, 11]⟩,
    ⟨239, 7, [2, 7, 17]⟩, ⟨271, 6, [2, 3, 5]⟩, ⟨293, 2, [2, 73]⟩, ⟨419, 2, [2, 11, 19]⟩,
    ⟨443, 2, [2, 13, 17]⟩, ⟨461, 2, [2, 5, 23]⟩, ⟨631, 3, [2, 3, 5, 7]⟩, ⟨797, 2, [2, 199]⟩,
    ⟨887, 5, [2, 443]⟩, ⟨971, 6, [2, 5, 97]⟩, ⟨1373, 2, [2, 7]⟩, ⟨1409, 3, [2, 11]⟩,
    ⟨1627, 3, [2, 3, 271]⟩, ⟨1871, 14, [2, 5, 11, 17]⟩, ⟨2011, 3, [2, 3, 5, 67]⟩,
    ⟨2621, 2, [2, 5, 131]⟩, ⟨2657, 3, [2, 83]⟩, ⟨2731, 3, [2, 3, 5, 7, 13]⟩,
    ⟨2861, 2, [2, 5, 11, 13]⟩, ⟨4051, 10, [2, 3, 5]⟩, ⟨4423, 3, [2, 3, 11, 67]⟩,
    ⟨5323, 5, [2, 3, 887]⟩, ⟨7723, 3, [2, 3, 11, 13]⟩, ⟨9349, 2, [2, 3, 19, 41]⟩,
    ⟨13441, 11, [2, 3, 5, 7]⟩, ⟨16699, 3, [2, 3, 11, 23]⟩, ⟨20113, 10, [2, 3, 419]⟩,
    ⟨24809, 6, [2, 7, 443]⟩, ⟨28181, 2, [2, 5, 1409]⟩, ⟨41201, 3, [2, 5, 103]⟩,
    ⟨85831, 3, [2, 3, 5, 2861]⟩, ⟨96557, 2, [2, 101, 239]⟩, ⟨120233, 3, [2, 7, 19, 113]⟩,
    ⟨305873, 3, [2, 7, 2731]⟩, ⟨1206781, 10, [2, 3, 5, 20113]⟩, ⟨1627771, 3, [2, 3, 5, 29, 1871]⟩,
    ⟨4681609, 23, [2, 3, 97, 2011]⟩, ⟨7240687, 3, [2, 3, 1206781]⟩,
    ⟨13331831, 13, [2, 5, 971, 1373]⟩, ⟨44706919, 6, [2, 3, 797, 9349]⟩,
    ⟨107590001, 3, [2, 5, 7, 29, 53]⟩, ⟨545358713, 5, [2, 41, 59, 28181]⟩,
    ⟨297159362677, 2, [2, 3, 11, 461, 1627771]⟩,
    ⟨107361793816595537, 3, [2, 16699, 85831, 4681609]⟩,
    ⟨173378833005251801, 6, [2, 5, 2621, 24809, 13331831]⟩,
    ⟨174723607534414371449, 3, [2, 17, 59, 4051, 120233, 44706919]⟩,
    ⟨22149492674086928081353, 5, [2, 3, 5323, 173378833005251801]⟩,
    ⟨132896956044521568488119, 6, [2, 3, 22149492674086928081353]⟩,
    ⟨29047611873442575647497758179, 2, [2, 293, 305873, 545358713, 297159362677]⟩,
    ⟨341948486974166000522343609283189, 2, [2, 3, 109, 29047611873442575647497758179]⟩,
    ⟨255515944373312847190720520512484175977, 3,
      [2, 7, 11, 1627, 2657, 4423, 41201, 96557, 7240687, 107590001]⟩,
    ⟨205115282021455665897114700593932402728804164701536103180137503955397371, 10,
      [2, 3, 5, 29, 31, 7723, 132896956044521568488119, 255515944373312847190720520512484175977]⟩]

/-- The ladder that ends with the order and the sparse prime. -/
def primeLadder : Ladder :=
  lowerRungs ++
    [⟨order, 7, [2, 3, 149, 631, 107361793816595537, 174723607534414371449,
        341948486974166000522343609283189]⟩,
      ⟨sparsePrime, 3, [2, 3, 7, 13441,
        205115282021455665897114700593932402728804164701536103180137503955397371]⟩]

/-- The ladder stands on the prime two. -/
theorem stands_primeLadder : Ladder.stands [2] primeLadder = true := by decide +kernel

private theorem prime_of_mem {r : Rung} (h : r ∈ primeLadder) : r.number.Prime :=
  Ladder.prime_of_stands (by simp [Nat.prime_two]) stands_primeLadder r h

/-- The sparse prime is prime. -/
theorem prime_sparsePrime : sparsePrime.Prime :=
  prime_of_mem (List.mem_append_right _ (List.mem_cons_of_mem _ List.mem_cons_self))

/-- The order of the group is prime. -/
theorem prime_order : order.Prime :=
  prime_of_mem (List.mem_append_right _ List.mem_cons_self)

instance : Fact (Nat.Prime Modulus.sparse.value) := ⟨prime_sparsePrime⟩

instance : Fact order.Prime := ⟨prime_order⟩

end Secp.Curve
