import Mathlib.RingTheory.AdjoinRoot
import Mathlib.Algebra.Ring.InjSurj
import Mathlib.Data.ZMod.ValMinAbs
import Mathlib.Tactic.Ring
import Mathlib.Tactic.LinearCombination

/-!
# The ring `K[X]/(X^N + 1)` on coefficient vectors

`NegPoly N K` is a vector of `N` coefficients with the negacyclic product. Every operation is
computable. The ring axioms come from the embedding into `AdjoinRoot (X ^ N + 1)`, a special
case of `evalAt`, which evaluates at any `ρ` with `ρ ^ N = -1`.
-/

namespace Negacyclic
open Polynomial

@[ext]
structure NegPoly (N : ℕ) (K : Type*) where
  coeff : Fin N → K

variable {N : ℕ} {K : Type*}

instance [DecidableEq K] : DecidableEq (NegPoly N K) := fun a b =>
  decidable_of_iff (a.coeff = b.coeff) NegPoly.ext_iff.symm

namespace NegPoly

section Operations
variable [CommRing K]

instance : Zero (NegPoly N K) := ⟨⟨fun _ => 0⟩⟩
instance : Add (NegPoly N K) := ⟨fun a b => ⟨fun i => a.coeff i + b.coeff i⟩⟩
instance : Neg (NegPoly N K) := ⟨fun a => ⟨fun i => -a.coeff i⟩⟩
instance : Sub (NegPoly N K) := ⟨fun a b => ⟨fun i => a.coeff i - b.coeff i⟩⟩

def const (c : K) : NegPoly N K := ⟨fun i => if i.val = 0 then c else 0⟩

instance : One (NegPoly N K) := ⟨const 1⟩

/-- Coefficient `i` of the left factor meets coefficient `k - i` of the right one. When `k - i`
wraps around, `X ^ N = -1` turns the sign. -/
instance : Mul (NegPoly N K) := ⟨fun a b => ⟨fun k =>
  ∑ i, if i ≤ k then a.coeff i * b.coeff (k - i) else -(a.coeff i * b.coeff (k - i))⟩⟩

@[simp] theorem coeff_zero (i : Fin N) : (0 : NegPoly N K).coeff i = 0 := rfl
@[simp] theorem coeff_add (a b : NegPoly N K) (i : Fin N) : (a + b).coeff i = a.coeff i + b.coeff i := rfl
@[simp] theorem coeff_neg (a : NegPoly N K) (i : Fin N) : (-a).coeff i = -a.coeff i := rfl
@[simp] theorem coeff_sub (a b : NegPoly N K) (i : Fin N) : (a - b).coeff i = a.coeff i - b.coeff i := rfl
theorem coeff_const (c : K) (i : Fin N) :
    (const c : NegPoly N K).coeff i = if i.val = 0 then c else 0 := rfl
theorem coeff_one (i : Fin N) : (1 : NegPoly N K).coeff i = if i.val = 0 then 1 else 0 := rfl
theorem coeff_mul (a b : NegPoly N K) (k : Fin N) : (a * b).coeff k =
    ∑ i, if i ≤ k then a.coeff i * b.coeff (k - i) else -(a.coeff i * b.coeff (k - i)) := rfl

/-- The monomial `X ^ e`, reduced by `X ^ N = -1`. -/
def mono (e : ℕ) : NegPoly N K := ⟨fun i => if i.val = e % N then (-1) ^ (e / N) else 0⟩

theorem coeff_mono (e : ℕ) (i : Fin N) :
    (mono e : NegPoly N K).coeff i = if i.val = e % N then (-1) ^ (e / N) else 0 := rfl

end Operations

section Evaluation
variable [CommRing K] {A : Type*} [CommRing A] [Algebra K A]

def evalAt (ρ : A) (a : NegPoly N K) : A := ∑ i, algebraMap K A (a.coeff i) * ρ ^ i.val

theorem evalAt_zero (ρ : A) : evalAt ρ (0 : NegPoly N K) = 0 := by simp [evalAt]

theorem evalAt_add (ρ : A) (a b : NegPoly N K) : evalAt ρ (a + b) = evalAt ρ a + evalAt ρ b := by
  simp only [evalAt, coeff_add, map_add, add_mul, Finset.sum_add_distrib]

theorem evalAt_neg (ρ : A) (a : NegPoly N K) : evalAt ρ (-a) = -evalAt ρ a := by
  simp only [evalAt, coeff_neg, map_neg, neg_mul, Finset.sum_neg_distrib]

theorem evalAt_sub (ρ : A) (a b : NegPoly N K) : evalAt ρ (a - b) = evalAt ρ a - evalAt ρ b := by
  simp only [evalAt, coeff_sub, map_sub, sub_mul, Finset.sum_sub_distrib]

theorem evalAt_const [NeZero N] (ρ : A) (c : K) : evalAt ρ (const c : NegPoly N K) = algebraMap K A c := by
  rw [evalAt, Finset.sum_eq_single (0 : Fin N)]
  · simp [coeff_const]
  · intro i _ hi
    have : i.val ≠ 0 := fun h => hi (Fin.ext h)
    simp [coeff_const, this]
  · simp

theorem pow_fin_add {ρ : A} (hρ : ρ ^ N = -1) (i j : Fin N) :
    ρ ^ (i.val + j.val) = (if i ≤ i + j then 1 else -1) * ρ ^ (i + j).val := by
  have hi := i.isLt
  have hj := j.isLt
  rcases Nat.lt_or_ge (i.val + j.val) N with h | h
  · have hv : (i + j).val = i.val + j.val := by rw [Fin.val_add, Nat.mod_eq_of_lt h]
    rw [if_pos (by rw [Fin.le_def, hv]; omega), one_mul, hv]
  · have hv : (i + j).val = i.val + j.val - N := by
      rw [Fin.val_add, Nat.mod_eq_sub_mod h, Nat.mod_eq_of_lt (by omega)]
    rw [if_neg (by rw [Fin.le_def, hv]; omega), hv, ← hρ, ← pow_add]
    congr 1
    omega

theorem evalAt_mul [NeZero N] {ρ : A} (hρ : ρ ^ N = -1) (a b : NegPoly N K) :
    evalAt ρ (a * b) = evalAt ρ a * evalAt ρ b := by
  rw [evalAt, evalAt, evalAt, Finset.sum_mul_sum]
  simp only [coeff_mul, map_sum, Finset.sum_mul]
  rw [Finset.sum_comm]
  refine Finset.sum_congr rfl fun i _ => ?_
  -- Row `i` of the product is the right factor shifted by `i`: reindex `k = i + j`.
  rw [← Equiv.sum_comp (Equiv.addLeft i)]
  refine Finset.sum_congr rfl fun j _ => ?_
  have hsub : i + j - i = j := by abel
  have hpow := pow_fin_add hρ i j
  rw [pow_add] at hpow
  simp only [Equiv.coe_addLeft, hsub]
  split at hpow
  · rename_i h
    rw [if_pos h, map_mul]
    linear_combination -(algebraMap K A (a.coeff i)) * algebraMap K A (b.coeff j) * hpow
  · rename_i h
    rw [if_neg h, map_neg, map_mul]
    linear_combination -(algebraMap K A (a.coeff i)) * algebraMap K A (b.coeff j) * hpow

theorem evalAt_mono [NeZero N] {ρ : A} (hρ : ρ ^ N = -1) (e : ℕ) :
    evalAt ρ (mono e : NegPoly N K) = ρ ^ e := by
  have hN : 0 < N := Nat.pos_of_ne_zero (NeZero.ne N)
  rw [evalAt, Finset.sum_eq_single (⟨e % N, Nat.mod_lt e hN⟩ : Fin N)]
  · rw [coeff_mono, if_pos rfl, map_pow, map_neg, map_one, ← hρ, ← pow_mul, ← pow_add]
    congr 1
    rw [add_comm, Nat.mod_add_div]
  · intro i _ hi
    have : i.val ≠ e % N := fun h => hi (Fin.ext h)
    simp [coeff_mono, this]
  · simp

end Evaluation

section Ring
variable [CommRing K]

noncomputable def toAdjoin (a : NegPoly N K) : AdjoinRoot (X ^ N + 1 : K[X]) :=
  evalAt (AdjoinRoot.root _) a

theorem root_pow : (AdjoinRoot.root (X ^ N + 1 : K[X])) ^ N = -1 := by
  have h := AdjoinRoot.eval₂_root (X ^ N + 1 : K[X])
  simp only [eval₂_add, eval₂_pow, eval₂_X, eval₂_one] at h
  exact eq_neg_of_add_eq_zero_left h

theorem toAdjoin_eq_mk (a : NegPoly N K) :
    toAdjoin a = AdjoinRoot.mk (X ^ N + 1) (∑ i : Fin N, C (a.coeff i) * X ^ i.val) := by
  simp only [toAdjoin, evalAt, map_sum, map_mul, map_pow, AdjoinRoot.mk_C, AdjoinRoot.mk_X,
    AdjoinRoot.algebraMap_eq]

theorem toAdjoin_add (a b : NegPoly N K) : toAdjoin (a + b) = toAdjoin a + toAdjoin b := evalAt_add _ a b

variable [NeZero N]

theorem sum_coeff_injective [Nontrivial K] {a : NegPoly N K}
    (h : (X ^ N + 1 : K[X]) ∣ ∑ i : Fin N, C (a.coeff i) * X ^ i.val) (i : Fin N) : a.coeff i = 0 := by
  have hmonic : (X ^ N + 1 : K[X]).Monic := monic_X_pow_add_C 1 (NeZero.ne N)
  have hdeg : (∑ i : Fin N, C (a.coeff i) * X ^ i.val).degree < (X ^ N + 1 : K[X]).degree := by
    rw [show (X ^ N + 1 : K[X]) = X ^ N + C 1 from rfl,
      degree_X_pow_add_C (Nat.pos_of_ne_zero (NeZero.ne N))]
    exact degree_sum_fin_lt _
  have hzero : ∑ i : Fin N, C (a.coeff i) * X ^ i.val = 0 := by
    by_contra hp
    exact hmonic.not_dvd_of_degree_lt hp hdeg h
  have hc := congrArg (fun p => p.coeff i.val) hzero
  simp only [finsetSum_coeff, coeff_C_mul, coeff_X_pow, Polynomial.coeff_zero, mul_ite, mul_one,
    mul_zero] at hc
  rwa [Finset.sum_eq_single i (fun j _ hj => if_neg fun h => hj (Fin.ext h.symm)) (by simp),
    if_pos rfl] at hc

theorem toAdjoin_injective : Function.Injective (toAdjoin : NegPoly N K → _) := by
  intro a b hab
  have hsub : toAdjoin (a - b) = 0 := by rw [toAdjoin, evalAt_sub]; exact sub_eq_zero.mpr hab
  rw [toAdjoin_eq_mk, AdjoinRoot.mk_eq_zero] at hsub
  ext i
  rcases subsingleton_or_nontrivial K with hK | hK
  · exact Subsingleton.elim _ _
  · exact sub_eq_zero.mp (sum_coeff_injective hsub i)

theorem toAdjoin_mul (a b : NegPoly N K) : toAdjoin (a * b) = toAdjoin a * toAdjoin b :=
  evalAt_mul root_pow a b

theorem toAdjoin_one : toAdjoin (1 : NegPoly N K) = 1 := by
  rw [toAdjoin, show (1 : NegPoly N K) = const 1 from rfl, evalAt_const, map_one]

instance : CommRing (NegPoly N K) where
  add_assoc a b c := by ext i; exact add_assoc _ _ _
  zero_add a := by ext i; exact zero_add _
  add_zero a := by ext i; exact add_zero _
  add_comm a b := by ext i; exact add_comm _ _
  neg_add_cancel a := by ext i; exact neg_add_cancel _
  sub_eq_add_neg a b := by ext i; exact sub_eq_add_neg _ _
  nsmul := nsmulRec
  zsmul := zsmulRec
  left_distrib a b c := toAdjoin_injective (by simp only [toAdjoin_mul, toAdjoin_add, mul_add])
  right_distrib a b c := toAdjoin_injective (by simp only [toAdjoin_mul, toAdjoin_add, add_mul])
  zero_mul a := toAdjoin_injective (by rw [toAdjoin_mul, toAdjoin, evalAt_zero, zero_mul])
  mul_zero a := toAdjoin_injective (by rw [toAdjoin_mul, toAdjoin, toAdjoin, evalAt_zero, mul_zero])
  mul_assoc a b c := toAdjoin_injective (by simp only [toAdjoin_mul, mul_assoc])
  one_mul a := toAdjoin_injective (by rw [toAdjoin_mul, toAdjoin_one, one_mul])
  mul_one a := toAdjoin_injective (by rw [toAdjoin_mul, toAdjoin_one, mul_one])
  mul_comm a b := toAdjoin_injective (by rw [toAdjoin_mul, toAdjoin_mul, mul_comm])

@[simp] theorem coeff_sum {ι : Type*} (s : Finset ι) (f : ι → NegPoly N K) (i : Fin N) :
    (∑ t ∈ s, f t).coeff i = ∑ t ∈ s, (f t).coeff i := by
  classical
  induction s using Finset.induction_on with
  | empty => rfl
  | insert t s ht ih => rw [Finset.sum_insert ht, Finset.sum_insert ht, coeff_add, ih]

theorem coeff_const_mul (c : K) (a : NegPoly N K) (k : Fin N) : (const c * a).coeff k = c * a.coeff k := by
  rw [coeff_mul, Finset.sum_eq_single (0 : Fin N)]
  · simp [coeff_const]
  · intro i _ hi
    have : i.val ≠ 0 := fun h => hi (Fin.ext h)
    simp [coeff_const, this]
  · simp

/-- The constant coefficient of a product is an inner product with the transposed factor. -/
theorem coeff_zero_mul (a f : NegPoly N K) :
    (a * f).coeff 0 = ∑ j, (if j = 0 then a.coeff 0 else -a.coeff (-j)) * f.coeff j := by
  rw [coeff_mul, ← Equiv.sum_comp (Equiv.neg (Fin N))]
  refine Finset.sum_congr rfl fun i _ => ?_
  simp only [Equiv.neg_apply, zero_sub, neg_neg]
  by_cases h : i = 0
  · subst h
    simp
  · have positive : ¬ -i ≤ 0 := fun hle => h (neg_eq_zero.mp (Fin.ext (Nat.le_zero.mp hle)))
    rw [if_neg h, if_neg positive, neg_mul]

/-- A change of coefficients. -/
def coeffHom {L : Type*} [CommRing L] (f : K →+* L) : NegPoly N K →+* NegPoly N L where
  toFun a := ⟨fun i => f (a.coeff i)⟩
  map_one' := by
    ext i
    simp only [coeff_one]
    split <;> simp
  map_mul' a b := by
    ext i
    simp only [coeff_mul, map_sum]
    refine Finset.sum_congr rfl fun j _ => ?_
    split <;> simp
  map_zero' := by
    ext i
    exact map_zero f
  map_add' a b := by
    ext i
    exact map_add f _ _

end Ring
end NegPoly
end Negacyclic
