import MultiKeyFHE.Library.BitReversal
import Mathlib.Algebra.BigOperators.Group.Finset.Basic
import Mathlib.Algebra.BigOperators.Ring.Finset
import Mathlib.Algebra.Ring.Parity
import Mathlib.Tactic.LinearCombination

/-!
# Butterfly networks

A stage of a radix two transform pairs the entries at distance `t` inside blocks of length `2 * t` and
replaces each pair by a function of both. `split` is the butterfly of the forward direction and `join`
that of the backward one. With the powers of `ψ` in bit-reversed order as factors, `2 ^ L` entries and
`ψ ^ 2 ^ L = -1`, the forward network evaluates at the odd powers of `ψ`, and the backward network
undoes it up to the factor `2 ^ L`.
-/

namespace Butterfly
open BitReversal

/-- One stage. The function may depend on the block. -/
def pairs {α : Type*} (f : ℕ → α → α → α × α) (t : ℕ) (v : ℕ → α) (k : ℕ) : α :=
  if k % (2 * t) < t then (f (k / (2 * t)) (v k) (v (k + t))).1 else (f (k / (2 * t)) (v (k - t)) (v k)).2

section Pairs
variable {α : Type*} {t : ℕ}

theorem exists_pair (ht : 0 < t) (k : ℕ) : ∃ i c, c < t ∧ (k = i * (2 * t) + c ∨ k = i * (2 * t) + c + t) := by
  have whole : k / (2 * t) * (2 * t) + k % (2 * t) = k := Nat.div_add_mod' k (2 * t)
  have below := Nat.mod_lt k (show 0 < 2 * t by omega)
  rcases Nat.lt_or_ge (k % (2 * t)) t with low | high
  · exact ⟨k / (2 * t), k % (2 * t), low, .inl whole.symm⟩
  · exact ⟨k / (2 * t), k % (2 * t) - t, by omega, .inr (by omega)⟩

theorem pairs_low (f : ℕ → α → α → α × α) (v : ℕ → α) (i : ℕ) {c : ℕ} (hc : c < t) :
    pairs f t v (i * (2 * t) + c) = (f i (v (i * (2 * t) + c)) (v (i * (2 * t) + c + t))).1 := by
  have place : (i * (2 * t) + c) % (2 * t) = c := by rw [Nat.mul_add_mod', Nat.mod_eq_of_lt (by omega)]
  have block : (i * (2 * t) + c) / (2 * t) = i := by
    rw [add_comm, Nat.add_mul_div_right _ _ (by omega), Nat.div_eq_of_lt (by omega), zero_add]
  rw [pairs, place, block, if_pos hc]

theorem pairs_high (f : ℕ → α → α → α × α) (v : ℕ → α) (i : ℕ) {c : ℕ} (hc : c < t) :
    pairs f t v (i * (2 * t) + c + t) = (f i (v (i * (2 * t) + c)) (v (i * (2 * t) + c + t))).2 := by
  have place : (i * (2 * t) + c + t) % (2 * t) = c + t := by
    rw [add_assoc, Nat.mul_add_mod', Nat.mod_eq_of_lt (by omega)]
  have block : (i * (2 * t) + c + t) / (2 * t) = i := by
    rw [add_assoc, add_comm, Nat.add_mul_div_right _ _ (by omega), Nat.div_eq_of_lt (by omega), zero_add]
  rw [pairs, place, block, if_neg (by omega), Nat.add_sub_cancel]

theorem ext_pairs (ht : 0 < t) {v v' : ℕ → α}
    (h : ∀ i c, c < t → v (i * (2 * t) + c) = v' (i * (2 * t) + c) ∧
      v (i * (2 * t) + c + t) = v' (i * (2 * t) + c + t)) : v = v' := by
  funext k
  obtain ⟨i, c, hc, rfl | rfl⟩ := exists_pair ht k
  · exact (h i c hc).1
  · exact (h i c hc).2

theorem pairs_pairs (ht : 0 < t) (f g : ℕ → α → α → α × α) (v : ℕ → α) :
    pairs g t (pairs f t v) = pairs (fun i a b => g i (f i a b).1 (f i a b).2) t v := by
  refine ext_pairs ht fun i c hc => ?_
  rw [pairs_low g _ i hc, pairs_high g _ i hc, pairs_low f v i hc, pairs_high f v i hc, pairs_low _ v i hc,
    pairs_high _ v i hc]
  exact ⟨rfl, rfl⟩

end Pairs

variable {K : Type*} [CommRing K]

def split (ω a b : K) : K × K := (a + ω * b, a - ω * b)

def join (ω a b : K) : K × K := (a + b, ω * (a - b))

def scale (c : K) (v : ℕ → K) : ℕ → K := fun k => c * v k

theorem scale_scale (a c : K) (v : ℕ → K) : scale a (scale c v) = scale (a * c) v := by
  funext k
  rw [scale, scale, scale, mul_assoc]

theorem pairs_join_scale {t : ℕ} (ht : 0 < t) (ω : ℕ → K) (c : K) (v : ℕ → K) :
    pairs (fun i => join (ω i)) t (scale c v) = scale c (pairs (fun i => join (ω i)) t v) := by
  refine ext_pairs ht fun i j hj => ?_
  simp only [scale, pairs_low _ _ i hj, pairs_high _ _ i hj, join]
  constructor <;> ring

theorem pairs_join_split {t : ℕ} (ht : 0 < t) {ω ω' : ℕ → K} (inverse : ∀ i, ω' i * ω i = 1) (v : ℕ → K) :
    pairs (fun i => join (ω' i)) t (pairs (fun i => split (ω i)) t v) = scale 2 v := by
  rw [pairs_pairs ht]
  refine ext_pairs ht fun i c hc => ?_
  rw [pairs_low _ v i hc, pairs_high _ v i hc]
  simp only [join, split, scale]
  constructor
  · ring
  · linear_combination 2 * v (i * (2 * t) + c + t) * inverse i

/-! ### The two networks -/

/-- The distance in stage `s` of `L`. -/
def gap (L s : ℕ) : ℕ := 2 ^ (L - 1 - s)

theorem gap_pos (L s : ℕ) : 0 < gap L s := by
  unfold gap
  positivity

theorem two_pow_mul_gap {L s : ℕ} (hs : s < L) : 2 ^ s * (2 * gap L s) = 2 ^ L := by
  rw [gap, ← pow_succ', ← pow_add]
  congr 1
  omega

def forwardStage (ζ : ℕ → K) (L s : ℕ) (v : ℕ → K) : ℕ → K := pairs (fun i => split (ζ (2 ^ s + i))) (gap L s) v

def backwardStage (ζ : ℕ → K) (L s : ℕ) (v : ℕ → K) : ℕ → K := pairs (fun i => join (ζ (2 ^ s + i))) (gap L s) v

/-- Stages `0` to `s - 1`. -/
def forward (ζ : ℕ → K) (L : ℕ) : ℕ → (ℕ → K) → ℕ → K
  | 0, v => v
  | s + 1, v => forwardStage ζ L s (forward ζ L s v)

/-- Stages `s - 1` down to `0`. -/
def backward (ζ : ℕ → K) (L : ℕ) : ℕ → (ℕ → K) → ℕ → K
  | 0, v => v
  | s + 1, v => backward ζ L s (backwardStage ζ L s v)

theorem backwardStage_scale (ζ : ℕ → K) (L s : ℕ) (c : K) (v : ℕ → K) :
    backwardStage ζ L s (scale c v) = scale c (backwardStage ζ L s v) := pairs_join_scale (gap_pos L s) _ c v

theorem backward_scale (ζ : ℕ → K) (L s : ℕ) (c : K) (v : ℕ → K) :
    backward ζ L s (scale c v) = scale c (backward ζ L s v) := by
  induction s generalizing v with
  | zero => rfl
  | succ s ih => rw [backward, backward, backwardStage_scale, ih]

theorem backward_forward {ζ ζ' : ℕ → K} (inverse : ∀ k, ζ' k * ζ k = 1) (L s : ℕ) (v : ℕ → K) :
    backward ζ' L s (forward ζ L s v) = scale (2 ^ s) v := by
  induction s with
  | zero =>
    funext k
    rw [backward, forward, scale, pow_zero, one_mul]
  | succ s ih =>
    have undone : backwardStage ζ' L s (forwardStage ζ L s (forward ζ L s v)) = scale 2 (forward ζ L s v) :=
      pairs_join_split (gap_pos L s) (fun i => inverse (2 ^ s + i)) _
    rw [backward, forward, undone, backward_scale, ih, scale_scale, ← pow_succ']

/-! ### Evaluation -/

/-- Entry `j` of block `i` has the value at `ρ i` of the polynomial whose coefficients are every `size`-th entry of
`x`, beginning with entry `j`. -/
def Evaluates (x v : ℕ → K) (blocks size : ℕ) (ρ : ℕ → K) : Prop :=
  ∀ i < blocks, ∀ j < size, v (i * size + j) = ∑ l ∈ Finset.range blocks, x (l * size + j) * ρ i ^ l

theorem sum_range_even_odd (f : ℕ → K) (n : ℕ) :
    ∑ l ∈ Finset.range (2 * n), f l = ∑ l ∈ Finset.range n, f (2 * l) + ∑ l ∈ Finset.range n, f (2 * l + 1) := by
  induction n with
  | zero => simp
  | succ n ih =>
    rw [show 2 * (n + 1) = 2 * n + 1 + 1 by ring]
    simp only [Finset.sum_range_succ, ih]
    ring

/-- A stage halves the blocks: the two halves evaluate at the two square roots. -/
theorem Evaluates.pairs_split {x v : ℕ → K} {m t : ℕ} {ρ ω ρ' : ℕ → K} (h : Evaluates x v m (2 * t) ρ)
    (root : ∀ i < m, ω i ^ 2 = ρ i) (even : ∀ i < m, ρ' (2 * i) = ω i) (odd : ∀ i < m, ρ' (2 * i + 1) = -ω i) :
    Evaluates x (pairs (fun i => split (ω i)) t v) (2 * m) t ρ' := by
  intro b hb j hj
  obtain ⟨i, hi | hi⟩ := Nat.even_or_odd' b
  all_goals
    have him : i < m := by omega
    have low := h i him j (by omega)
    have high := h i him (j + t) (by omega)
    rw [← root i him] at low high
    rw [← add_assoc] at high
    have evens : ∀ l, x (2 * l * t + j) = x (l * (2 * t) + j) := fun l => congrArg x (by ring)
    have odds : ∀ l, x ((2 * l + 1) * t + j) = x (l * (2 * t) + (j + t)) := fun l => congrArg x (by ring)
    rw [sum_range_even_odd]
    simp only [evens, odds]
  · rw [hi, show 2 * i * t + j = i * (2 * t) + j by ring, pairs_low _ v i hj, even i him]
    simp only [split, low, high, Finset.mul_sum, ← add_assoc]
    congr 1
    · exact Finset.sum_congr rfl fun l _ => by rw [pow_mul]
    · exact Finset.sum_congr rfl fun l _ => by ring
  · rw [hi, show (2 * i + 1) * t + j = i * (2 * t) + j + t by ring, pairs_high _ v i hj, odd i him]
    simp only [split, low, high, Finset.mul_sum, ← add_assoc, sub_eq_add_neg, ← Finset.sum_neg_distrib]
    congr 1
    · exact Finset.sum_congr rfl fun l _ => by rw [(even_two_mul l).neg_pow, pow_mul]
    · exact Finset.sum_congr rfl fun l _ => by rw [(odd_two_mul_add_one l).neg_pow]; ring

/-- Where the blocks stand after `s` stages. -/
def point (ψ : K) (L s i : ℕ) : K := ψ ^ ((2 * reverseBits s i + 1) * 2 ^ (L - s))

/-- The factors in the order in which the stages read them. -/
def twiddle (ψ : K) (L k : ℕ) : K := ψ ^ reverseBits L k

theorem twiddle_stage (ψ : K) {L s i : ℕ} (hs : s < L) (hi : i < 2 ^ s) :
    twiddle ψ L (2 ^ s + i) = ψ ^ ((2 * reverseBits s i + 1) * gap L s) := by
  rw [twiddle, gap]
  nth_rewrite 1 [show L = s + (L - 1 - s + 1) by omega]
  rw [reverseBits_two_pow_add hi]

theorem forward_evaluates {ψ : K} {L : ℕ} (half : ψ ^ 2 ^ L = -1) (x : ℕ → K) {s : ℕ} (hs : s ≤ L) :
    Evaluates x (forward (twiddle ψ L) L s x) (2 ^ s) (2 ^ (L - s)) (point ψ L s) := by
  induction s with
  | zero =>
    intro i hi j _
    obtain rfl : i = 0 := by simpa using hi
    simp [forward]
  | succ s ih =>
    have size : 2 ^ (L - s) = 2 * gap L s := by
      rw [gap, ← pow_succ']
      congr 1
      omega
    have next : 2 ^ (L - (s + 1)) = gap L s := by
      rw [gap]
      congr 1
      omega
    have before := ih (by omega)
    rw [size] at before
    rw [pow_succ', next, forward, forwardStage]
    refine before.pairs_split ?_ ?_ ?_
    · intro i hi
      rw [twiddle_stage ψ (by omega) hi, point, size, ← pow_mul]
      congr 1
      ring
    · intro i hi
      rw [twiddle_stage ψ (by omega) hi, point, next, reverseBits_two_mul]
    · intro i hi
      have whole : 2 * 2 ^ s * gap L s = 2 ^ L := by
        rw [← two_pow_mul_gap (show s < L by omega)]
        ring
      rw [twiddle_stage ψ (by omega) hi, point, next, reverseBits_two_mul_add_one]
      calc ψ ^ ((2 * (2 ^ s + reverseBits s i) + 1) * gap L s)
          = ψ ^ (2 * 2 ^ s * gap L s) * ψ ^ ((2 * reverseBits s i + 1) * gap L s) := by
            rw [← pow_add]
            congr 1
            ring
        _ = -ψ ^ ((2 * reverseBits s i + 1) * gap L s) := by rw [whole, half, neg_one_mul]

/-- The whole network evaluates at the odd powers of `ψ`, in bit-reversed order. -/
theorem forward_eq_sum {ψ : K} {L : ℕ} (half : ψ ^ 2 ^ L = -1) (x : ℕ → K) {j : ℕ} (hj : j < 2 ^ L) :
    forward (twiddle ψ L) L L x j = ∑ i ∈ Finset.range (2 ^ L), x i * ψ ^ (i * (2 * reverseBits L j + 1)) := by
  have h := forward_evaluates half x le_rfl j hj 0 (by positivity)
  simp only [Nat.sub_self, pow_zero, mul_one, add_zero, point] at h
  rw [h]
  refine Finset.sum_congr rfl fun i _ => ?_
  rw [← pow_mul, mul_comm i]

end Butterfly
