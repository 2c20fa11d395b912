import Mathlib.FieldTheory.Finite.Basic
import Mathlib.GroupTheory.OrderOfElement
import Mathlib.RingTheory.RootsOfUnity.PrimitiveRoots

/-!
# Orders of residues

Residues modulo a prime are numbers below it. Those of order `m` are the powers of any one of them by the exponents
coprime to `m`, and a power of a generator has every order that divides `q - 1`.
-/

namespace ResidueOrder

/-- The residues modulo `q` whose multiplicative order is `m`. -/
def ofOrder (q m : ℕ) : Set ℕ := {r | 0 < r ∧ r < q ∧ orderOf (r : ZMod q) = m}

variable {q m g z : ℕ}

theorem cast_eq_one (more : 1 < q) (x : ℕ) : (x : ZMod q) = 1 ↔ x % q = 1 := by
  rw [← Nat.cast_one, ZMod.natCast_eq_natCast_iff, Nat.ModEq, Nat.mod_eq_of_lt more]

variable [prime : Fact q.Prime]

theorem cast_ne_zero (pos : 0 < g) (below : g < q) : (g : ZMod q) ≠ 0 := by
  rw [Ne, ZMod.natCast_eq_zero_iff]
  exact Nat.not_dvd_of_pos_of_lt pos below

/-- No proper quotient of `q - 1` by a prime is a period. -/
theorem order_of_generator (pos : 0 < g) (below : g < q)
    (proper : ∀ p : ℕ, p.Prime → p ∣ q - 1 → g ^ ((q - 1) / p) % q ≠ 1) : orderOf (g : ZMod q) = q - 1 := by
  have more := prime.out.one_lt
  apply orderOf_eq_of_pow_and_pow_div_prime (by omega)
  · exact ZMod.pow_card_sub_one_eq_one (cast_ne_zero pos below)
  · intro p hp divides one
    apply proper p hp divides
    rw [← cast_eq_one more, Nat.cast_pow]
    exact one

theorem mem_ofOrder (some : 0 < m) (r : ℕ) : r % q ∈ ofOrder q m ↔ orderOf (r : ZMod q) = m := by
  have more := prime.out.one_lt
  change 0 < r % q ∧ r % q < q ∧ orderOf ((r % q : ℕ) : ZMod q) = m ↔ _
  rw [ZMod.natCast_mod]
  constructor
  · exact fun member => member.2.2
  · intro order
    refine ⟨Nat.pos_of_ne_zero fun zero => ?_, Nat.mod_lt r (by omega), order⟩
    have period := pow_orderOf_eq_one (r : ZMod q)
    rw [order, (ZMod.natCast_eq_zero_iff r q).mpr (Nat.dvd_of_mod_eq_zero zero), zero_pow some.ne'] at period
    exact zero_ne_one period

theorem root_of_generator (order : orderOf (g : ZMod q) = q - 1) (some : 0 < m) (divides : m ∣ q - 1) :
    g ^ ((q - 1) / m) % q ∈ ofOrder q m := by
  have more := prime.out.one_lt
  obtain ⟨k, split⟩ := divides
  have pos : 0 < k := by
    rcases Nat.eq_zero_or_pos k with rfl | pos
    · omega
    · exact pos
  rw [mem_ofOrder some, split, Nat.mul_div_cancel_left k some, Nat.cast_pow, orderOf_pow_of_dvd pos.ne', order, split,
    Nat.mul_div_cancel m pos]
  rw [order, split]
  exact Nat.dvd_mul_left k m

/-- Every residue of order `m` is a power of `z`, by an exponent coprime to `m`. -/
theorem ofOrder_iff (two : 2 ≤ m) (root : z ∈ ofOrder q m) (r : ℕ) :
    r ∈ ofOrder q m ↔ ∃ i, 1 ≤ i ∧ i < m ∧ i.Coprime m ∧ r = z ^ i % q := by
  have primitive : IsPrimitiveRoot (z : ZMod q) m := IsPrimitiveRoot.iff_orderOf.mpr root.2.2
  have : NeZero m := ⟨by omega⟩
  constructor
  · rintro ⟨-, below, order⟩
    have period := pow_orderOf_eq_one (r : ZMod q)
    rw [order] at period
    obtain ⟨i, less, power⟩ := primitive.eq_pow_of_pow_eq_one period
    have coprime : i.Coprime m := by
      rw [← primitive.pow_iff_coprime (by omega), IsPrimitiveRoot.iff_orderOf, power, order]
    refine ⟨i, Nat.pos_of_ne_zero fun zero => ?_, less, coprime, ?_⟩
    · rw [zero, Nat.coprime_zero_left] at coprime
      omega
    · rw [← Nat.cast_pow, ZMod.natCast_eq_natCast_iff, Nat.ModEq, Nat.mod_eq_of_lt below] at power
      exact power.symm
  · rintro ⟨i, -, -, coprime, rfl⟩
    rw [mem_ofOrder (by omega), Nat.cast_pow, ← IsPrimitiveRoot.iff_orderOf]
    exact primitive.pow_of_coprime i coprime

end ResidueOrder
