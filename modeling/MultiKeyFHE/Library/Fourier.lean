import Mathlib.Algebra.Ring.GeomSum
import Mathlib.RingTheory.RootsOfUnity.PrimitiveRoots
import MultiKeyFHE.Library.InPlace

/-!
# Discrete Fourier transforms

`dft` is the transform of any length. A network whose butterflies get their factors by the place inside the block computes it
from the entries in bit-reversed order (`Decimated`); `crossSweep` is such a stage in an array. The product of two transforms
is that of the cyclic convolution, and a window of it has no wrapped terms when both factors are short. A transform of any
length is such a window, since `2ik` is a sum of squares of `i`, `k` and their distance.
-/

namespace Fourier
open Butterfly BitReversal InPlace
variable {K : Type*} [CommRing K]

def dft (r : K) (n : ℕ) (x : ℕ → K) (k : ℕ) : K := ∑ u ∈ Finset.range n, x u * r ^ (k * u)

theorem dft_congr {r : K} {n : ℕ} {x y : ℕ → K} (same : ∀ u < n, x u = y u) (k : ℕ) : dft r n x k = dft r n y k :=
  Finset.sum_congr rfl fun u member => by rw [same u (Finset.mem_range.mp member)]

/-! ### Decimation in time -/

/-- A stage whose factor depends on the place in the block. -/
def crossed (ω : ℕ → K) (t : ℕ) (v : ℕ → K) (k : ℕ) : K :=
  if k % (2 * t) < t then (split (ω (k % (2 * t))) (v k) (v (k + t))).1 else (split (ω (k % (2 * t) - t)) (v (k - t)) (v k)).2

section Stages
variable {t c : ℕ} (hc : c < t) (ω : ℕ → K) (v : ℕ → K) (i : ℕ)
include hc

theorem crossed_low : crossed ω t v (i * (2 * t) + c) = v (i * (2 * t) + c) + ω c * v (i * (2 * t) + c + t) := by
  have place : (i * (2 * t) + c) % (2 * t) = c := by rw [Nat.mul_add_mod', Nat.mod_eq_of_lt (by omega)]
  rw [crossed, place, if_pos hc, split]

theorem crossed_high : crossed ω t v (i * (2 * t) + c + t) = v (i * (2 * t) + c) - ω c * v (i * (2 * t) + c + t) := by
  have place : (i * (2 * t) + c + t) % (2 * t) = c + t := by rw [add_assoc, Nat.mul_add_mod', Nat.mod_eq_of_lt (by omega)]
  rw [crossed, place, if_neg (by omega), Nat.add_sub_cancel, Nat.add_sub_cancel, split]

end Stages

/-- After `s` stages every block holds the transform of the entries whose places end like its number, reversed. -/
def Decimated (r : K) (x : ℕ → K) (L s : ℕ) (v : ℕ → K) : Prop :=
  ∀ b < 2 ^ (L - s), ∀ t < 2 ^ s,
    v (b * 2 ^ s + t) = ∑ u ∈ Finset.range (2 ^ s), x (u * 2 ^ (L - s) + reverseBits (L - s) b) * r ^ (2 ^ (L - s) * (t * u))

section Network
variable {r : K} {x v : ℕ → K} {L s : ℕ}

theorem decimated_reversed (r : K) (x : ℕ → K) (L : ℕ) : Decimated r x L 0 fun k => x (reverseBits L k) := by
  intro b _ t ht
  obtain rfl : t = 0 := by simpa using ht
  simp

theorem Decimated.congr {v' : ℕ → K} (hs : s ≤ L) (now : Decimated r x L s v) (same : ∀ k < 2 ^ L, v' k = v k) :
    Decimated r x L s v' := by
  intro b hb t ht
  have whole : 2 ^ (L - s) * 2 ^ s = 2 ^ L := by rw [← pow_add, Nat.sub_add_cancel hs]
  have room : (b + 1) * 2 ^ s ≤ 2 ^ (L - s) * 2 ^ s := Nat.mul_le_mul_right _ hb
  rw [add_mul, one_mul] at room
  rw [same _ (by omega), now b hb t ht]

theorem Decimated.dft (now : Decimated r x L L v) {k : ℕ} (hk : k < 2 ^ L) : v k = dft r (2 ^ L) x k := by
  have whole := now 0 (by positivity) k hk
  simpa [Fourier.dft, reverseBits] using whole

theorem Decimated.stage (half : r ^ 2 ^ (L - 1) = -1) (hs : s < L) (now : Decimated r x L s v) :
    Decimated r x L (s + 1) (crossed (fun t => r ^ (t * 2 ^ (L - (s + 1)))) (2 ^ s) v) := by
  obtain ⟨e, rfl⟩ : ∃ e, L = s + 1 + e := ⟨L - (s + 1), by omega⟩
  have rest : s + 1 + e - (s + 1) = e := by omega
  have before : s + 1 + e - s = e + 1 := by omega
  have whole : s + 1 + e - 1 = e + s := by omega
  unfold Decimated at now ⊢
  rw [before] at now
  rw [whole] at half
  rw [rest]
  intro b hb
  have room : 2 * b + 1 < 2 ^ (e + 1) := by rw [pow_succ]; omega
  have low : ∀ t < 2 ^ s, v (b * (2 * 2 ^ s) + t) =
      ∑ u ∈ Finset.range (2 ^ s), x (2 * u * 2 ^ e + reverseBits e b) * r ^ (2 ^ e * (t * (2 * u))) := by
    intro t ht
    have value := now (2 * b) (by omega) t ht
    rw [reverseBits_two_mul] at value
    rw [show b * (2 * 2 ^ s) = 2 * b * 2 ^ s by ring, value]
    refine Finset.sum_congr rfl fun u _ => ?_
    ring_nf
  have high : ∀ t < 2 ^ s, v (b * (2 * 2 ^ s) + t + 2 ^ s) =
      ∑ u ∈ Finset.range (2 ^ s), x ((2 * u + 1) * 2 ^ e + reverseBits e b) * r ^ (2 ^ e * (t * (2 * u))) := by
    intro t ht
    have value := now (2 * b + 1) room t ht
    rw [reverseBits_two_mul_add_one] at value
    rw [show b * (2 * 2 ^ s) + t + 2 ^ s = (2 * b + 1) * 2 ^ s + t by ring, value]
    refine Finset.sum_congr rfl fun u _ => ?_
    ring_nf
  intro t ht
  rw [pow_succ', sum_range_even_odd]
  rcases Nat.lt_or_ge t (2 ^ s) with below | above
  · rw [crossed_low below, low t below, high t below, Finset.mul_sum]
    congr 1
    refine Finset.sum_congr rfl fun u _ => ?_
    ring
  · obtain ⟨t, rfl⟩ : ∃ t', t = t' + 2 ^ s := ⟨t - 2 ^ s, by omega⟩
    have below : t < 2 ^ s := by rw [pow_succ] at ht; omega
    -- Half a block further on, the even powers are the same and the odd ones change sign.
    have turn : ∀ u, r ^ (2 ^ e * ((t + 2 ^ s) * u)) = r ^ (2 ^ e * (t * u)) * (-1) ^ u := by
      intro u
      rw [← half, ← pow_mul, ← pow_add]
      ring_nf
    rw [← add_assoc, crossed_high below, low t below, high t below, Finset.mul_sum, sub_eq_add_neg, ← Finset.sum_neg_distrib]
    congr 1
    · refine Finset.sum_congr rfl fun u _ => ?_
      rw [turn, (even_two_mul u).neg_one_pow, mul_one]
    · refine Finset.sum_congr rfl fun u _ => ?_
      rw [turn, (odd_two_mul_add_one u).neg_one_pow]
      ring

end Network

/-! ### Convolution -/

/-- The places of a factor add up to `j`, cyclically. -/
def cyclic {A : Type*} [CommSemiring A] (n : ℕ) (a b : ℕ → A) (j : ℕ) : A :=
  ∑ u ∈ Finset.range n, ∑ v ∈ Finset.range n, if (u + v) % n = j then a u * b v else 0

theorem cast_cyclic (n : ℕ) (a b : ℕ → ℕ) (j : ℕ) :
    ((cyclic n a b j : ℕ) : K) = cyclic n (fun u => (a u : K)) (fun v => (b v : K)) j := by
  unfold cyclic
  push_cast
  rfl

theorem cyclic_le {n A B : ℕ} {a b : ℕ → ℕ} (ha : ∀ i, a i ≤ A) (hb : ∀ i, b i ≤ B) (j : ℕ) : cyclic n a b j ≤ n * (A * B) := by
  have once : ∀ u ∈ Finset.range n, (∑ v ∈ Finset.range n, if (u + v) % n = j then a u * b v else 0) ≤ A * B := by
    intro u _
    -- A place of the first factor meets one of the second.
    have single : ((Finset.range n).filter fun v => (u + v) % n = j).card ≤ 1 := by
      rw [Finset.card_le_one]
      intro v hv v' hv'
      simp only [Finset.mem_filter, Finset.mem_range] at hv hv'
      have same : u + v ≡ u + v' [MOD n] := hv.2.trans hv'.2.symm
      exact (Nat.ModEq.add_left_cancel' u same).eq_of_lt_of_lt hv.1 hv'.1
    rw [← Finset.sum_filter]
    refine (Finset.sum_le_card_nsmul _ _ (A * B) fun v _ => Nat.mul_le_mul (ha u) (hb v)).trans ?_
    rw [smul_eq_mul]
    exact (Nat.mul_le_mul_right _ single).trans (one_mul _).le
  calc cyclic n a b j ≤ ∑ _ ∈ Finset.range n, A * B := Finset.sum_le_sum once
    _ = n * (A * B) := by simp

/-- No wrapped term reaches the places from the last of the first factor on. -/
theorem cyclic_window {A : Type*} [CommSemiring A] {n m j : ℕ} {a : ℕ → A} (b : ℕ → A) (hm : m ≤ n) (hj : j < n)
    (reach : m ≤ j + 1) (zero : ∀ u, m ≤ u → a u = 0) : cyclic n a b j = ∑ u ∈ Finset.range m, a u * b (j - u) := by
  have rest : ∀ u ∈ Finset.range n, u ∉ Finset.range m →
      (∑ v ∈ Finset.range n, if (u + v) % n = j then a u * b v else 0) = 0 := by
    intro u _ outside
    have none := zero u (by simpa using outside)
    simp [none]
  rw [cyclic, ← Finset.sum_subset (Finset.range_mono hm) rest]
  refine Finset.sum_congr rfl fun u member => ?_
  have hu : u < m := by simpa using member
  rw [Finset.sum_eq_single_of_mem (j - u) (Finset.mem_range.mpr (by omega)), if_pos]
  · rw [Nat.add_sub_cancel' (by omega), Nat.mod_eq_of_lt hj]
  · intro v member other
    have hv : v < n := by simpa using member
    refine if_neg fun same => other ?_
    rcases Nat.lt_or_ge (u + v) n with below | above
    · rw [Nat.mod_eq_of_lt below] at same
      omega
    · rw [Nat.mod_eq_sub_mod above, Nat.mod_eq_of_lt (by omega)] at same
      omega

section Inversion
variable [IsDomain K] {r r' : K} {n : ℕ} (primitive : IsPrimitiveRoot r n) (inverse : r * r' = 1)
include primitive inverse

theorem sum_powers {j : ℕ} (hj : j < n) (s : ℕ) :
    ∑ k ∈ Finset.range n, r ^ (k * s) * r' ^ (j * k) = if s % n = j then (n : K) else 0 := by
  have shape : ∀ k, r ^ (k * s) * r' ^ (j * k) = (r ^ s * r' ^ j) ^ k := by
    intro k
    rw [mul_pow, ← pow_mul, ← pow_mul, mul_comm k s]
  simp only [shape]
  have unit : r ^ j * r' ^ j = 1 := by rw [← mul_pow, inverse, one_pow]
  have same : r ^ s * r' ^ j = 1 ↔ s % n = j := by
    have cancelled : r ^ s * r' ^ j = 1 ↔ r ^ s = r ^ j := by
      constructor
      · intro one
        linear_combination r ^ j * one - r ^ s * unit
      · intro equal
        rw [equal, unit]
    have reduced : r ^ s = r ^ (s % n) := by rw [primitive.eq_orderOf, pow_mod_orderOf]
    rw [cancelled, reduced]
    exact ⟨primitive.pow_inj (Nat.mod_lt s (by omega)) hj, fun equal => by rw [equal]⟩
  split
  · rename_i at_j
    rw [same.mpr at_j]
    simp
  · rename_i apart
    have other : r ^ s * r' ^ j - 1 ≠ 0 := sub_ne_zero.mpr (mt same.mp apart)
    have whole : (r ^ s * r' ^ j) ^ n = 1 := by
      have back : r' ^ n = 1 := by
        have both : r ^ n * r' ^ n = 1 := by rw [← mul_pow, inverse, one_pow]
        rwa [primitive.pow_eq_one, one_mul] at both
      rw [mul_pow, ← pow_mul, ← pow_mul, mul_comm s, mul_comm j, pow_mul, pow_mul, primitive.pow_eq_one, back, one_pow, one_pow,
        one_mul]
    have sum := mul_geom_sum (r ^ s * r' ^ j) n
    rw [whole, sub_self] at sum
    exact (mul_eq_zero.mp sum).resolve_left other

/-- The transform back of the product of two transforms. -/
theorem dft_mul (a b : ℕ → K) {j : ℕ} (hj : j < n) :
    dft r' n (fun k => dft r n a k * dft r n b k) j = n * cyclic n a b j := by
  have terms : ∀ k, dft r n a k * dft r n b k * r' ^ (j * k) =
      ∑ u ∈ Finset.range n, ∑ v ∈ Finset.range n, a u * b v * (r ^ (k * (u + v)) * r' ^ (j * k)) := by
    intro k
    rw [dft, dft, Finset.sum_mul_sum, Finset.sum_mul]
    refine Finset.sum_congr rfl fun u _ => ?_
    rw [Finset.sum_mul]
    refine Finset.sum_congr rfl fun v _ => ?_
    ring
  rw [dft, Finset.sum_congr rfl fun k _ => terms k, Finset.sum_comm, cyclic, Finset.mul_sum]
  refine Finset.sum_congr rfl fun u _ => ?_
  rw [Finset.sum_comm, Finset.mul_sum]
  refine Finset.sum_congr rfl fun v _ => ?_
  rw [← Finset.mul_sum, sum_powers primitive inverse hj]
  split
  · ring
  · rw [mul_zero, mul_zero]

end Inversion

/-- A transform of any length as a window of a cyclic product with squared exponents. -/
theorem chirp {ρ ρ' : K} (inverse : ρ * ρ' = 1) {m n k : ℕ} {x b : ℕ → K} (hk : k < m) (room : 2 * m - 1 ≤ n)
    (above : ∀ i < m, b (m - 1 + i) = ρ' ^ i ^ 2) (below : ∀ i < m, b (m - 1 - i) = ρ' ^ i ^ 2) :
    ρ ^ k ^ 2 * cyclic n (fun u => if u < m then x u * ρ ^ u ^ 2 else 0) b (m - 1 + k) =
      ∑ i ∈ Finset.range m, x i * ρ ^ (2 * i * k) := by
  rw [cyclic_window b (show m ≤ n by omega) (by omega) (by omega) fun u hu => if_neg (not_lt.mpr hu), Finset.mul_sum]
  refine Finset.sum_congr rfl fun i member => ?_
  have hi : i < m := by simpa using member
  have unit : ∀ e, ρ ^ e * ρ' ^ e = 1 := fun e => by rw [← mul_pow, inverse, one_pow]
  have cancel : ∀ d, b (m - 1 + k - i) = ρ' ^ d ^ 2 → i ^ 2 + k ^ 2 = d ^ 2 + 2 * i * k →
      ρ ^ k ^ 2 * (x i * ρ ^ i ^ 2 * b (m - 1 + k - i)) = x i * ρ ^ (2 * i * k) := by
    intro d value squares
    have product : ρ ^ i ^ 2 * ρ ^ k ^ 2 = ρ ^ d ^ 2 * ρ ^ (2 * i * k) := by rw [← pow_add, squares, pow_add]
    rw [value]
    linear_combination x i * ρ' ^ d ^ 2 * product + x i * ρ ^ (2 * i * k) * unit (d ^ 2)
  rw [if_pos hi]
  rcases Nat.le_total i k with le | le
  · obtain ⟨d, rfl⟩ := Nat.exists_eq_add_of_le le
    exact cancel d (by rw [← above d (by omega)]; congr 1; omega) (by ring)
  · obtain ⟨d, rfl⟩ := Nat.exists_eq_add_of_le le
    exact cancel d (by rw [← below d (by omega)]; congr 1; omega) (by ring)

/-! ### Stages in an array -/

section Array
variable {ε α β : Type}

/-- Block `j` of `m`. Every pair fetches its own butterfly, by its place in the block. -/
def crossSweep (fault : ε) (fly : ℕ → Except ε (α → α → Outcome α β)) (m t : ℕ) (tape : Tape α β) : Except ε (Tape α β) :=
  (List.range m).foldlM (fun tape j => (List.range t).foldlM (fun tape i => do
    let f ← fly i
    pass fault f (j * (2 * t) + i) (j * (2 * t) + i + t) tape) tape) tape

variable {P : α → Prop} {Q : β → Prop} {R : α → K} {fly : ℕ → Except ε (α → α → Outcome α β)} {ω : ℕ → K} {m t : ℕ}
  {tape : Tape α β}

variable (fly) in
theorem crossSweep_ok (fault : ε) (length : tape.cells.length = m * (2 * t)) (good : Admissible P Q tape)
    (flies : ∀ i < t, ∃ f, fly i = .ok f ∧ Refines P Q R f (split (ω i))) :
    ∃ tape', crossSweep fault fly m t tape = .ok tape' ∧ tape'.cells.length = tape.cells.length ∧ Admissible P Q tape' ∧
      ∀ k < tape.cells.length, values R tape'.cells k = crossed ω t (values R tape.cells) k := by
  -- `c` pairs of the block at `b` are done, and every block below.
  let Inv (b c : ℕ) (now : Tape α β) : Prop := now.cells.length = tape.cells.length ∧ Admissible P Q now ∧
    ∀ k < tape.cells.length, values R now.cells k =
      if Written t b c k then crossed ω t (values R tape.cells) k else values R tape.cells k
  have block : ∀ j < m, ∀ now, Inv (j * (2 * t)) 0 now → ∃ next, (List.range t).foldlM (fun tape i => do
      let f ← fly i
      pass fault f (j * (2 * t) + i) (j * (2 * t) + i + t) tape) now = .ok next ∧ Inv (j * (2 * t)) t next := by
    intro j hj now start
    have room : j * (2 * t) + 2 * t ≤ m * (2 * t) := by
      rw [← Nat.succ_mul]
      exact Nat.mul_le_mul_right _ hj
    refine foldlM_range_ok (fun c now => Inv (j * (2 * t)) c now) start ?_
    rintro i hi now ⟨size, admissible, before⟩
    obtain ⟨f, found, refines⟩ := flies i hi
    rw [← size] at before
    obtain ⟨next, run, size', admissible', after⟩ := refines.pass_written fault admissible before hi (by omega)
      (crossed_low hi ω _ j) (crossed_high hi ω _ j)
    rw [size] at after
    refine ⟨next, ?_, size'.trans size, admissible', after⟩
    rw [found]
    exact run
  obtain ⟨last, run, size, admissible, after⟩ := foldlM_range_ok (fun j now => Inv (j * (2 * t)) 0 now) (n := m) (s := tape)
    ⟨rfl, good, fun k _ => by rw [if_neg (by unfold Written; omega)]⟩ (by
      intro j hj now start
      obtain ⟨next, run, size, admissible, after⟩ := block j hj now start
      refine ⟨next, run, size, admissible, fun k hk => ?_⟩
      rw [after k hk]
      have next : (j + 1) * (2 * t) = j * (2 * t) + 2 * t := Nat.succ_mul _ _
      exact if_congr (by rw [next]; unfold Written; omega) rfl rfl)
  refine ⟨last, run, size, admissible, fun k hk => ?_⟩
  rw [after k hk, if_pos (by unfold Written; omega)]

end Array

end Fourier
