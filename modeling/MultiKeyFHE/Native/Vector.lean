import MultiKeyFHE.Native.Integer
import MultiKeyFHE.Library.Run
import Mathlib.Algebra.BigOperators.Fin
import Mathlib.Algebra.BigOperators.ModEq

/-!
# Native vectors

The loops over `NativeVectorT` entries that the encryption schemes use. A vector of length `n` is a
function on `Fin n`; its modulus is kept by the object that holds it.
-/

namespace MultiKeyFHE
open NativeInteger

namespace NativeVector
variable (w : NativeSize)

/-- `SetModulus` of a vector, as `SwitchModulus` calls it. The constructors take any modulus. -/
def setModulus (modulus : ℕ) : Except Fault Unit :=
  if modulusTooLarge w modulus then
    .error (.notAvailableError ("NativeVectorT supports only modulus size <=  " ++
      toString w.maxModulusSize ++ " bits"))
  else .ok ()

/-- One entry of `SwitchModulus` from `om` to `nm`. -/
def switchModulus (om nm v : ℕ) : ℕ :=
  if nm > om then if v > om / 2 then wrap w (v + (nm - om)) else v
  else
    let v := if v > om / 2 then wrap w (v + (nm - om % nm)) else v
    if v ≥ nm then v % nm else v

/-- One entry of `ModEq(nm)` on a vector modulo `om`. It differs from `SwitchModulus` for `nm = 2`. -/
def modEntry (om nm v : ℕ) : ℕ :=
  if nm = 2 then (v ^^^ (if v > om / 2 then 1 else 0)) &&& 1 else switchModulus w om nm v

variable {w} {n : ℕ}

theorem switchModulus_bit {om nm s : ℕ} (bit : s = 0 ∨ s = 1) (hom : 2 ≤ om) (hnm : 2 ≤ nm) :
    switchModulus w om nm s = s := by
  have half : ¬ s > om / 2 := by omega
  simp only [switchModulus, if_neg half]
  split
  · rfl
  · rw [if_neg (by omega)]

/-- The representative of `v` modulo `om` that `SwitchModulus` keeps. -/
def centered (om v : ℕ) : ℤ := if v > om / 2 then (v : ℤ) - om else v

theorem centered_modEq (om v : ℕ) : centered om v ≡ v [ZMOD om] := by
  unfold centered
  split
  · exact Int.modEq_iff_dvd.mpr ⟨1, by ring⟩
  · exact Int.ModEq.refl _

theorem switchModulus_lt {om nm v : ℕ} (hv : v < om) (hnm : 0 < nm) (hw : nm ≤ 2 ^ w.bits) :
    switchModulus w om nm v < nm := by
  unfold switchModulus
  split
  · split
    · rw [wrap_of_lt (by omega)]
      omega
    · omega
  · have reduce : ∀ x : ℕ, (if x ≥ nm then x % nm else x) < nm := by
      intro x
      split
      · exact Nat.mod_lt _ hnm
      · omega
    exact reduce _

theorem switchModulus_cast {om nm v : ℕ} (hv : v < om) (hnm : 0 < nm) (hw : om + nm ≤ 2 ^ w.bits) :
    ((switchModulus w om nm v : ℕ) : ℤ) ≡ centered om v [ZMOD nm] := by
  unfold switchModulus centered
  split
  · split
    · rw [wrap_of_lt (by omega)]
      refine Int.modEq_iff_dvd.mpr ⟨-1, ?_⟩
      push_cast [Nat.cast_sub (show om ≤ nm by omega)]
      ring
    · exact Int.ModEq.refl _
  · have reduce : ∀ x : ℕ, ((if x ≥ nm then x % nm else x : ℕ) : ℤ) ≡ x [ZMOD nm] := by
      intro x
      split
      · rw [Int.natCast_mod]
        exact Int.mod_modEq _ _
      · exact Int.ModEq.refl _
    have hmod := Nat.mod_lt om hnm
    refine (reduce _).trans ?_
    split
    · rw [wrap_of_lt (by omega)]
      -- `om` and its remainder agree modulo `nm`.
      have split : (om : ℤ) = om % nm + nm * (om / nm) := (Int.emod_add_mul_ediv _ _).symm
      refine Int.modEq_iff_dvd.mpr ⟨-(1 + om / nm), ?_⟩
      push_cast [Nat.cast_sub (show om % nm ≤ nm by omega)]
      linarith
    · exact Int.ModEq.refl _

/-- How a generator stores the signed value `c` modulo `M`. -/
def residue (M : ℕ) (c : ℤ) : ℕ := (c % M).toNat

theorem residue_lt {M : ℕ} (hM : 0 < M) (c : ℤ) : residue M c < M := by
  have := Int.emod_lt_of_pos c (show (0 : ℤ) < M by omega)
  rw [residue]
  omega

theorem residue_modEq {M : ℕ} (hM : 0 < M) (c : ℤ) : (residue M c : ℤ) ≡ c [ZMOD M] := by
  rw [residue, Int.toNat_of_nonneg (Int.emod_nonneg _ (by omega))]
  exact Int.mod_modEq _ _

/-! ### Inner products -/

variable (w)

/-- `sum.ModAddEq(temp[l], mod)` over the entries of `a.ModMul(s)`. -/
def modMulSum (mod : ℕ) (a s : Fin n → ℕ) : ℕ :=
  (List.finRange n).foldl
    (fun sum l => modAdd w sum (modMulFastMu w (a l) (s l) mod (computeMu w mod)) mod) 0

/-- `inner += a[i].ModMulFast(s[i], mod, mu)` with no reduction before the end of the loop. -/
def addProducts (mod : ℕ) (a s : Fin n → ℕ) (inner : ℕ) : ℕ :=
  (List.finRange n).foldl (fun inner i => add w inner (modMulFastMu w (a i) (s i) mod (computeMu w mod))) inner

variable {w}

theorem modMulSum_modEq_from {mod : ℕ} (pos : 0 < mod) (word : 2 * mod ≤ 2 ^ w.bits) {a s : Fin n → ℕ}
    (products : ∀ l, modMulFastMu w (a l) (s l) mod (computeMu w mod) ≡ a l * s l [MOD mod]) {start : ℕ} (below : start < mod) :
    (List.finRange n).foldl (fun sum l => modAdd w sum (modMulFastMu w (a l) (s l) mod (computeMu w mod)) mod) start < mod ∧
      (((List.finRange n).foldl (fun sum l => modAdd w sum (modMulFastMu w (a l) (s l) mod (computeMu w mod)) mod) start : ℕ) :
        ℤ) ≡ start + ∑ l, (a l : ℤ) * s l [ZMOD mod] := by
  have once : ∀ sum l, sum < mod →
      modAdd w sum (modMulFastMu w (a l) (s l) mod (computeMu w mod)) mod < mod ∧
        ((modAdd w sum (modMulFastMu w (a l) (s l) mod (computeMu w mod)) mod : ℕ) : ℤ) ≡
          sum + (a l : ℤ) * s l [ZMOD mod] := by
    intro sum l _
    rw [modAdd_eq pos word]
    refine ⟨Nat.mod_lt _ pos, ?_⟩
    have product := Int.natCast_modEq_iff.mpr (products l)
    rw [Int.natCast_mod]
    push_cast at product ⊢
    exact (Int.mod_modEq _ _).trans (product.add_left _)
  rw [Fin.sum_univ_def]
  exact Run.foldl_modEq (· < mod) (fun sum : ℕ => (sum : ℤ)) _ once (List.finRange n) below

theorem modMulSum_modEq_of_products {mod : ℕ} (pos : 0 < mod) (word : 2 * mod ≤ 2 ^ w.bits) {a s : Fin n → ℕ}
    (products : ∀ l, modMulFastMu w (a l) (s l) mod (computeMu w mod) ≡ a l * s l [MOD mod]) :
    modMulSum w mod a s < mod ∧ (modMulSum w mod a s : ℤ) ≡ ∑ l, (a l : ℤ) * s l [ZMOD mod] := by
  have total := modMulSum_modEq_from pos word products pos
  rwa [Nat.cast_zero, zero_add] at total

theorem modMulSum_modEq {mod : ℕ} (h2 : 2 ≤ mod) (hm : ¬ modulusTooLarge w mod) {a s : Fin n → ℕ}
    (ha : ∀ l, a l < mod) (hs : ∀ l, s l < mod) :
    modMulSum w mod a s < mod ∧ (modMulSum w mod a s : ℤ) ≡ ∑ l, (a l : ℤ) * s l [ZMOD mod] := by
  have hlt := lt_of_not_tooLarge hm
  exact modMulSum_modEq_of_products (by omega) (by omega) fun l => modMulFastMu_modEq h2 hm (ha l) (hs l)

theorem addProducts_of_lt {mod : ℕ} (h2 : 2 ≤ mod) (hm : mod ≤ 2 ^ w.bits) {a s : Fin n → ℕ}
    (small : ∀ i, a i * s i < mod) {inner : ℕ} (fits : inner + ∑ i, a i * s i < 2 ^ w.bits) :
    addProducts w mod a s inner = inner + ∑ i, a i * s i := by
  rw [Fin.sum_univ_def] at fits ⊢
  rw [addProducts]
  revert fits
  induction List.finRange n generalizing inner with
  | nil => simp
  | cons x rest ih =>
    intro fits
    rw [List.map_cons, List.sum_cons] at fits ⊢
    rw [List.foldl_cons, modMulFastMu_of_lt h2 (small x) hm, NativeInteger.add, wrap_of_lt (by omega), ih (by omega),
      add_assoc]

theorem addProducts_eq {mod : ℕ} (h2 : 2 ≤ mod) (hm : mod ≤ 2 ^ w.bits) {a s : Fin n → ℕ}
    (ha : ∀ i, a i < mod) (bit : ∀ i, s i = 0 ∨ s i = 1) {inner : ℕ}
    (fits : inner + ∑ i, a i * s i < 2 ^ w.bits) : addProducts w mod a s inner = inner + ∑ i, a i * s i := by
  refine addProducts_of_lt h2 hm (fun i => ?_) fits
  rcases bit i with h | h <;> rw [h] <;> have := ha i <;> omega

/-- Modulo a power of two that fits the word, the sum may wrap. -/
theorem addProducts_modEq {mod : ℕ} (h2 : 2 ≤ mod) (hm : ¬ modulusTooLarge w mod) (hw : mod ∣ 2 ^ w.bits)
    {a s : Fin n → ℕ} (ha : ∀ l, a l < mod) (hs : ∀ l, s l < mod) (inner : ℕ) :
    (addProducts w mod a s inner : ℤ) ≡ inner + ∑ l, (a l : ℤ) * s l [ZMOD mod] := by
  have once : ∀ (sum : ℕ) l, True →
      True ∧ ((NativeInteger.add w sum (modMulFastMu w (a l) (s l) mod (computeMu w mod)) : ℕ) : ℤ) ≡
        sum + (a l : ℤ) * s l [ZMOD mod] := by
    intro sum l _
    refine ⟨trivial, ?_⟩
    have product := Int.natCast_modEq_iff.mpr (modMulFastMu_modEq h2 hm (ha l) (hs l))
    have word : ((NativeInteger.add w sum (modMulFastMu w (a l) (s l) mod (computeMu w mod)) : ℕ) : ℤ) ≡
        sum + (modMulFastMu w (a l) (s l) mod (computeMu w mod) : ℕ) [ZMOD mod] := by
      rw [NativeInteger.add, wrap, Int.natCast_mod, Nat.cast_add]
      exact (Int.mod_modEq _ _).of_dvd (Int.natCast_dvd_natCast.mpr hw)
    push_cast at product
    exact word.trans (product.add_left _)
  have total := (Run.foldl_modEq (fun _ => True) (fun sum : ℕ => (sum : ℤ)) _ once (List.finRange n) (s := inner)
    trivial).2
  rwa [← Fin.sum_univ_def] at total

end NativeVector
end MultiKeyFHE
