import MultiKeyFHE.Polynomial.Impl
import MultiKeyFHE.Library.Scatter

/-!
# The index loops of the automorphisms

Where `AutomorphismTransform` and `PrecomputeAutoMap` write, and what. The indices are words of 32 bits, and since
`2 ^ 32` is a multiple of every dimension their wrapping changes nothing. The evaluation format and the map reverse bits
as the transforms do, and fail for the same lengths.
-/

namespace MultiKeyFHE.PolyImpl
open NativeInteger InPlace Scatter

variable {w : NativeSize} {L k q : ℕ} {values : List ℕ}

/-! ### Indices -/

theorem and_mask (x L : ℕ) : x &&& ((1 <<< L) - 1) = x % 2 ^ L := by
  rw [Nat.one_shiftLeft, Nat.and_two_pow_sub_one_eq_mod]

theorem mod_word_mod (x : ℕ) (hL : L < 32) : x % 2 ^ 32 % 2 ^ L = x % 2 ^ L :=
  Nat.mod_mod_of_dvd x (pow_dvd_pow 2 hL.le)

/-- The bit above the mask, which is the sign of the power of `X`. -/
theorem sign_bit (x : ℕ) (hL : L < 32) : (x % 2 ^ 32) >>> L &&& 0x1 = x / 2 ^ L % 2 := by
  have split : 2 ^ 32 = 2 ^ L * (2 * 2 ^ (31 - L)) := by
    rw [← pow_succ', ← pow_add]
    congr 1
    omega
  rw [Nat.and_one_is_mod, Nat.shiftRight_eq_div_pow, split, Nat.mod_mul_right_div_self, Nat.mod_mod_of_dvd]
  exact dvd_mul_right 2 _

theorem mul_permutes (odd : k % 2 = 1) (L : ℕ) : Permutes (fun j => j * k % 2 ^ L) (2 ^ L) := by
  refine ⟨fun j _ => Nat.mod_lt _ (by positivity), fun i hi j hj same => ?_⟩
  have coprime : Nat.gcd (2 ^ L) k = 1 := (Nat.coprime_two_left.mpr (Nat.odd_iff.mpr odd)).pow_left L
  have cancelled : i ≡ j [MOD 2 ^ L] := Nat.ModEq.cancel_right_of_coprime coprime same
  rwa [Nat.ModEq, Nat.mod_eq_of_lt hi, Nat.mod_eq_of_lt hj] at cancelled

theorem reverse_permutes (L : ℕ) : Permutes (BitReversal.reverseBits L) (2 ^ L) := by
  refine ⟨fun j _ => BitReversal.reverseBits_lt L j, fun i hi j hj same => ?_⟩
  rw [← BitReversal.reverseBits_reverseBits hi, same, BitReversal.reverseBits_reverseBits hj]

/-! ### Coefficients -/

/-- The coefficient that comes from `X ^ j`. -/
def movedCoefficient (w : NativeSize) (q : ℕ) (values : List ℕ) (L k j : ℕ) : ℕ :=
  if j * k / 2 ^ L % 2 = 1 then sub w q (values.getD j 0) else values.getD j 0

theorem permuteCoefficients_ok (hL : L < 32) (odd : k % 2 = 1) (length : values.length = 2 ^ L) :
    ∃ result, permuteCoefficients w q values (2 ^ L) L k = .ok result ∧
      Written (fun j => j * k % 2 ^ L) (movedCoefficient w q values L k) (2 ^ L) (2 ^ L) result := by
  obtain ⟨last, run, written, -⟩ := foldlM_range_ok (n := 2 ^ L) (s := (List.replicate (2 ^ L) 0, 0))
    (f := moveCoefficient w q values L k)
    (fun i now => Written (fun j => j * k % 2 ^ L) (movedCoefficient w q values L k) (2 ^ L) i now.1 ∧
      now.2 = i * k % 2 ^ 32)
    ⟨Written.start List.length_replicate, by simp⟩ (by
      rintro i hi ⟨result, jk⟩ ⟨now, rfl⟩
      have place : i * k % 2 ^ 32 &&& ((1 <<< L) - 1) = i * k % 2 ^ L := by rw [and_mask, mod_word_mod _ hL]
      have found : load Fault.outOfRange values i = .ok (values.getD i 0) := by
        rw [load_ok _ (by omega), List.getD_eq_getElem]
      have moved : (if (i * k % 2 ^ 32) >>> L &&& 0x1 ≠ 0 then sub w q (values.getD i 0) else values.getD i 0) =
          movedCoefficient w q values L k i := by
        rw [sign_bit _ hL, movedCoefficient]
        exact if_congr (by omega) rfl rfl
      refine ⟨(result.set (i * k % 2 ^ L) (movedCoefficient w q values L k i), (i + 1) * k % 2 ^ 32), ?_,
        now.store (mul_permutes odd L) hi, rfl⟩
      rw [moveCoefficient, found]
      dsimp only [bind, Except.bind]
      rw [place, moved, store_ok _ (by rw [now.length]; exact Nat.mod_lt _ (by positivity))]
      dsimp only [pure, Except.pure]
      rw [Nat.succ_mul, Nat.mod_add_mod])
  refine ⟨last.1, ?_, written⟩
  rw [permuteCoefficients, run]
  rfl

/-! ### Evaluations -/

/-- The place that the evaluation for `j` is taken from, before the bits are reversed. -/
def movedIndex (L k j : ℕ) : ℕ := (2 * j + 1) * k / 2 % 2 ^ L

theorem permuteEvaluations_ok (one : 1 ≤ L) (small : L ≤ 24) (hk : k < 2 ^ 32) (length : values.length = 2 ^ L) :
    ∃ result, permuteEvaluations values (2 ^ L) L k = .ok result ∧
      Written (BitReversal.reverseBits L) (fun j => values.getD (BitReversal.reverseBits L (movedIndex L k j)) 0)
        (2 ^ L) (2 ^ L) result := by
  obtain ⟨last, run, written, -⟩ := foldlM_range_ok (n := 2 ^ L) (s := (List.replicate (2 ^ L) 0, k))
    (f := moveEvaluation values L k)
    (fun i now => Written (BitReversal.reverseBits L)
      (fun j => values.getD (BitReversal.reverseBits L (movedIndex L k j)) 0) (2 ^ L) i now.1 ∧
      now.2 = (2 * i + 1) * k % 2 ^ 32)
    ⟨Written.start List.length_replicate, by rw [Nat.mul_zero, Nat.zero_add, Nat.one_mul, Nat.mod_eq_of_lt hk]⟩ (by
      rintro i hi ⟨result, jk⟩ ⟨now, rfl⟩
      have index : ((2 * i + 1) * k % 2 ^ 32) >>> 1 &&& ((1 <<< L) - 1) = movedIndex L k i := by
        rw [and_mask, Nat.shiftRight_eq_div_pow, pow_one, movedIndex]
        have split : 2 ^ 32 = 2 * 2 ^ 31 := by norm_num
        rw [split, Nat.mod_mul_right_div_self, Nat.mod_mod_of_dvd _ (pow_dvd_pow 2 (by omega))]
      have inside : movedIndex L k i < 2 ^ L := Nat.mod_lt _ (by positivity)
      have source := BitReversal.reverseBits_lt L (movedIndex L k i)
      refine ⟨(result.set (BitReversal.reverseBits L i)
        (values.getD (BitReversal.reverseBits L (movedIndex L k i)) 0), (2 * (i + 1) + 1) * k % 2 ^ 32), ?_,
        now.store (reverse_permutes L) hi, rfl⟩
      rw [moveEvaluation]
      dsimp only
      rw [index, NbTheory.reverseBits_eq one small inside, NbTheory.reverseBits_eq one small hi,
        load_ok _ (by omega), List.getD_eq_getElem _ _ (by omega)]
      dsimp only [bind, Except.bind]
      rw [store_ok _ (by rw [now.length]; exact BitReversal.reverseBits_lt L i)]
      dsimp only [pure, Except.pure]
      rw [Nat.mod_add_mod, show (2 * (i + 1) + 1) * k = (2 * i + 1) * k + 2 * k by ring])
  refine ⟨last.1, ?_, written⟩
  rw [permuteEvaluations, run]
  rfl

/-- A pass fails, or it keeps the number of cells. -/
theorem moveEvaluation_cases (values : List ℕ) (k logn : ℕ) (now : List ℕ × ℕ) (j : ℕ) :
    moveEvaluation values logn k now j = .error .outOfRange ∨
      ∃ next, moveEvaluation values logn k now j = .ok next ∧ next.1.length = now.1.length ∧
        NbTheory.reverseBits j logn < now.1.length := by
  rw [moveEvaluation]
  dsimp only [load, store]
  cases values[NbTheory.reverseBits (now.2 >>> 1 &&& 1 <<< logn - 1) logn]? with
  | none => exact .inl rfl
  | some value =>
    by_cases inside : NbTheory.reverseBits j logn < now.1.length
    · refine .inr ⟨(now.1.set (NbTheory.reverseBits j logn) value, (now.2 + 2 * k) % 2 ^ 32), ?_, List.length_set, inside⟩
      dsimp only [bind, Except.bind]
      rw [if_pos inside]
      rfl
    · left
      dsimp only [bind, Except.bind]
      rw [if_neg inside]

/-- Zero bits are not reversed, and from 25 bits on the second pass leaves the cells. -/
theorem permuteEvaluations_fails (long : L = 0 ∨ 25 ≤ L) (fits : L ≤ 31) :
    permuteEvaluations values (2 ^ L) L k = .error .outOfRange := by
  have fold : (List.range (2 ^ L)).foldlM (moveEvaluation values L k) (List.replicate (2 ^ L) 0, k) =
      .error .outOfRange := by
    rcases long with rfl | long
    · rcases moveEvaluation_cases values k 0 (List.replicate 1 0, k) 0 with
        stopped | ⟨next, -, -, inside⟩
      · rw [pow_zero, List.range_one, List.foldlM_cons, stopped]
        rfl
      · exact absurd inside (show ¬ NbTheory.reverseBits 0 0 < 1 by decide)
    · have far := NbTheory.le_reverseBits_one long fits
      obtain ⟨rest, hrest⟩ : ∃ rest, 2 ^ L = rest + 1 + 1 := ⟨2 ^ L - 2, by
        have : 2 ^ 1 ≤ 2 ^ L := Nat.pow_le_pow_right (by norm_num) (by omega)
        omega⟩
      have range : List.range (2 ^ L) = 0 :: 1 :: (List.range rest).map fun j => j + 1 + 1 := by
        rw [hrest, List.range_succ_eq_map, List.range_succ_eq_map, List.map_cons, List.map_map]
        rfl
      rw [range, List.foldlM_cons]
      rcases moveEvaluation_cases values k L (List.replicate (2 ^ L) 0, k) 0 with
        stopped | ⟨next, first, length, -⟩
      · rw [stopped]
        rfl
      · rw [first]
        dsimp only [bind, Except.bind]
        rw [List.foldlM_cons]
        rw [List.length_replicate] at length
        rcases moveEvaluation_cases values k L next 1 with stopped | ⟨-, -, -, inside⟩
        · rw [stopped]
          rfl
        · omega
  rw [permuteEvaluations, fold]
  rfl

/-! ### The precomputed map -/

theorem roundLog2_two_pow (e : ℕ) : NbTheory.roundLog2 (2 ^ e) = e := by
  have below : ¬ 2 ^ (2 * e + 1) ≤ 2 ^ e * 2 ^ e := by
    rw [← pow_add, Nat.pow_le_pow_iff_right (by norm_num)]
    omega
  rw [NbTheory.roundLog2, Nat.log2_two_pow, if_neg below]

theorem precomputeAutoMap_ok (one : 1 ≤ L) (small : L ≤ 24) {precomp : List ℕ} (length : precomp.length = 2 ^ L) :
    ∃ result, NbTheory.precomputeAutoMap (2 ^ L) k precomp = .ok result ∧
      Written (BitReversal.reverseBits L) (fun j => BitReversal.reverseBits L (movedIndex L k j)) (2 ^ L) (2 ^ L)
        result := by
  have order : (2 ^ L <<< 1) % 2 ^ 32 = 2 ^ (L + 1) := by
    rw [Nat.shiftLeft_eq, pow_one, ← pow_succ, Nat.mod_eq_of_lt]
    exact Nat.pow_lt_pow_right (by norm_num) (by omega)
  rw [NbTheory.precomputeAutoMap]
  simp only [order, roundLog2_two_pow]
  refine foldlM_range_ok (fun i now => Written (BitReversal.reverseBits L)
    (fun j => BitReversal.reverseBits L (movedIndex L k j)) (2 ^ L) i now) (Written.start length) ?_
  intro i hi result now
  have index : (((i <<< 1) + 1) * k % 2 ^ 32 - (((i <<< 1) + 1) * k % 2 ^ 32) >>> (L + 1) <<< (L + 1)) >>> 1 =
      movedIndex L k i := by
    rw [Nat.shiftLeft_eq _ (L + 1), Nat.shiftRight_eq_div_pow _ (L + 1), Nat.shiftLeft_eq, pow_one, mul_comm i 2,
      ← Nat.mod_eq_sub_div_mul, mod_word_mod _ (by omega), Nat.shiftRight_eq_div_pow, pow_one, pow_succ',
      Nat.mod_mul_right_div_self, movedIndex]
  have inside : movedIndex L k i < 2 ^ L := Nat.mod_lt _ (by positivity)
  refine ⟨_, ?_, now.store (reverse_permutes L) hi⟩
  rw [index, NbTheory.reverseBits_eq one small inside, NbTheory.reverseBits_eq one small hi,
    store_ok _ (by rw [now.length]; exact BitReversal.reverseBits_lt L i)]

end MultiKeyFHE.PolyImpl
