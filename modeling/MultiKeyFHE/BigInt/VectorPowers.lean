import MultiKeyFHE.BigInt.Powers
import MultiKeyFHE.BigInt.Runs
import MultiKeyFHE.Native.WordVector
import Mathlib.GroupTheory.OrderOfElement
import Mathlib.Data.ZMod.Basic

/-!
# Powers of vectors

`ModExp` of the native vectors and of `mubintvec`. Both reduce the exponent by the modulus, as they do with a summand or a
factor. `raises_iff` says for which entries the reduced exponent leads to the same power.
-/

namespace MultiKeyFHE
open NativeInteger

namespace WordVector
variable (w : NativeSize)

def modExp (a : WordVector) (b : ℕ) : Except Fault WordVector := do
  let bv ← reduceScalar b a.modulus
  return { a with values := a.values.map fun x => NativeInteger.modExp w x bv a.modulus }

def modExpEq (a : WordVector) (b : ℕ) : Except Fault WordVector := do
  let bv ← reduceScalar b a.modulus
  return { a with values := a.values.map fun x => NativeInteger.modExp w x bv a.modulus }

end WordVector

/-- Vectors of dynamic big integers. -/
structure Mubintvec where
  values : List Ubint
  modulus : Ubint
  deriving DecidableEq, Repr

namespace Mubintvec
variable (l : LimbT)

def modExp (a : Mubintvec) (b : Ubint) : Except Fault Mubintvec := do
  let bLocal ← Ubint.reduce l b a.modulus
  let values ← a.values.mapM fun x => Ubint.modExp l x bLocal a.modulus
  return { a with values := values }

def modExpEq (a : Mubintvec) (b : Ubint) : Except Fault Mubintvec := do
  let bLocal ← Ubint.reduce l b a.modulus
  let values ← a.values.mapM fun x => Ubint.modExp l x bLocal a.modulus
  return { a with values := values }

end Mubintvec

namespace VectorPowers

/-! ### Reduced exponents -/

/-- The order of every entry, modulo the part of the modulus that its power leaves, divides what the exponent loses. -/
def OrdersDivide (values : List ℕ) (m b : ℕ) : Prop :=
  ∀ v ∈ values, orderOf (v : ZMod (m / m.gcd (v ^ (b % m)))) ∣ m * (b / m)

theorem pow_reduced_iff {m : ℕ} (pos : 0 < m) (v b : ℕ) :
    v ^ (b % m) % m = v ^ b % m ↔ orderOf (v : ZMod (m / m.gcd (v ^ (b % m)))) ∣ m * (b / m) := by
  have whole : v ^ b = v ^ (b % m) * v ^ (m * (b / m)) := by
    rw [← pow_add, Nat.mod_add_div]
  rw [orderOf_dvd_iff_pow_eq_one, whole]
  generalize v ^ (b % m) = c
  have cast : (v : ZMod (m / m.gcd c)) ^ (m * (b / m)) = 1 ↔ 1 ≡ v ^ (m * (b / m)) [MOD m / m.gcd c] := by
    rw [← ZMod.natCast_eq_natCast_iff, eq_comm]
    push_cast
    rfl
  rw [cast]
  constructor
  · intro same
    apply Nat.ModEq.cancel_left_div_gcd pos (c := c)
    rw [mul_one]
    exact same
  · intro same
    have scaled : c * 1 ≡ c * v ^ (m * (b / m)) [MOD c * (m / m.gcd c)] := same.mul_left' c
    have multiple : m ∣ c * (m / m.gcd c) := by
      obtain ⟨t, split⟩ := Nat.gcd_dvd_right m c
      refine ⟨t, ?_⟩
      calc c * (m / m.gcd c) = m.gcd c * t * (m / m.gcd c) := by rw [← split]
        _ = m.gcd c * (m / m.gcd c) * t := by ring
        _ = m * t := by rw [Nat.mul_div_cancel' (Nat.gcd_dvd_left m c)]
    have product := scaled.of_dvd multiple
    rwa [mul_one] at product

theorem powers_reduced_iff {m : ℕ} (pos : 0 < m) (values : List ℕ) (b : ℕ) :
    (∀ v ∈ values, v ^ (b % m) % m = v ^ b % m) ↔ OrdersDivide values m b :=
  forall₂_congr fun v _ => pow_reduced_iff pos v b

/-! ### Both vectors -/

/-- Every entry of the results is the power. -/
def NativeRaises (w : NativeSize) (a : WordVector) (b : ℕ) : Prop :=
  ∃ r r', a.modExp w b = .ok r ∧ a.modExpEq w b = .ok r' ∧ r.values = (a.values.map fun v => v ^ b % a.modulus) ∧
    r'.values = a.values.map fun v => v ^ b % a.modulus

/-- The same for big integers, by their numbers. -/
def BigRaises (l : LimbT) (a : Mubintvec) (b : Ubint) : Prop :=
  ∃ r r', a.modExp l b = .ok r ∧ a.modExpEq l b = .ok r' ∧
    List.Forall₂ (fun x y => Ubint.Represents l y (Ubint.number l x ^ Ubint.number l b % Ubint.number l a.modulus))
      a.values r.values ∧
    List.Forall₂ (fun x y => Ubint.Represents l y (Ubint.number l x ^ Ubint.number l b % Ubint.number l a.modulus))
      a.values r'.values

theorem nativeRaises_iff {w : NativeSize} {a : WordVector} (h2 : 2 ≤ a.modulus) (word : a.modulus < 2 ^ w.bits)
    (ha : a.Reduced) (b : ℕ) : NativeRaises w a b ↔ OrdersDivide a.values a.modulus b := by
  have pos : 0 < a.modulus := by omega
  have entries : (a.values.map fun x => NativeInteger.modExp w x (b % a.modulus) a.modulus) =
      a.values.map fun x => x ^ (b % a.modulus) % a.modulus :=
    List.map_congr_left fun v hv => modExp_eq h2 word.le ((ha v hv).trans word) _
  have run : a.modExp w b = .ok { a with values := a.values.map fun x => x ^ (b % a.modulus) % a.modulus } := by
    rw [← entries, WordVector.modExp, WordVector.reduceScalar_eq pos]
    rfl
  have alike : a.modExpEq w b = a.modExp w b := rfl
  rw [← powers_reduced_iff pos, ← List.map_inj_left]
  constructor
  · rintro ⟨r, r', run', -, powers, -⟩
    rw [run] at run'
    cases run'
    exact powers
  · intro powers
    exact ⟨_, _, run, alike.trans run, powers, powers⟩

theorem bigRaises_iff {l : LimbT} {a : Mubintvec} {b : Ubint} (h2 : 2 ≤ Ubint.number l a.modulus)
    (hm : Ubint.Normalised l a.modulus) (ha : ∀ x ∈ a.values, Ubint.Normalised l x) (hb : Ubint.Normalised l b)
    (fits : ∀ x ∈ a.values, Ubint.PowersFit (Ubint.number l x) (Ubint.number l b % Ubint.number l a.modulus)
      (Ubint.number l a.modulus)) :
    BigRaises l a b ↔ OrdersDivide (a.values.map (Ubint.number l)) (Ubint.number l a.modulus) (Ubint.number l b) := by
  obtain ⟨m, modulus, fitsM⟩ : ∃ m, a.modulus = Ubint.stored l m ∧ m.size < 2 ^ 32 := ⟨_, hm.eq_stored, hm.fits⟩
  obtain ⟨e, rfl, fitsE⟩ : ∃ e, b = Ubint.stored l e ∧ e.size < 2 ^ 32 := ⟨_, hb.eq_stored, hb.fits⟩
  unfold BigRaises
  simp only [modulus, Ubint.number_stored] at h2 fits ⊢
  have pos : 0 < m := by omega
  have reduced := Ubint.reduce_stored (l := l) fitsM pos.ne' fitsE
  have entries : (a.values.mapM fun x => Ubint.modExp l x (Ubint.stored l (e % m)) (Ubint.stored l m)) =
      .ok (a.values.map fun x => Ubint.stored l (Ubint.number l x ^ (e % m) % m)) := by
    apply Run.mapM_eq_map
    intro x hx
    have stored := Ubint.modExp_stored (l := l) fitsM pos (Ubint.mod_size fitsM pos.ne' e) (fits x hx) h2 (ha x hx).fits
    rwa [← (ha x hx).eq_stored] at stored
  have run : a.modExp l (Ubint.stored l e) =
      .ok { a with values := a.values.map fun x => Ubint.stored l (Ubint.number l x ^ (e % m) % m) } := by
    rw [Mubintvec.modExp, modulus, reduced]
    dsimp only [bind, Except.bind]
    rw [entries]
    rfl
  have alike : a.modExpEq l (Ubint.stored l e) = a.modExp l (Ubint.stored l e) := rfl
  rw [← powers_reduced_iff pos, List.forall_mem_map]
  constructor
  · rintro ⟨r, r', run', -, powers, -⟩ x hx
    rw [run] at run'
    cases run'
    rw [List.forall₂_map_right_iff, List.forall₂_same] at powers
    have same := (powers x hx).2
    rwa [Ubint.number_stored] at same
  · intro powers
    have all : List.Forall₂ (fun x y => Ubint.Represents l y (Ubint.number l x ^ e % m)) a.values
        (a.values.map fun x => Ubint.stored l (Ubint.number l x ^ (e % m) % m)) := by
      rw [List.forall₂_map_right_iff, List.forall₂_same]
      intro x hx
      rw [powers x hx]
      exact Ubint.represents_stored (Ubint.mod_size fitsM pos.ne' _)
    exact ⟨_, _, run, alike.trans run, all, all⟩

/-- Both vectors raise their entries to the exponent exactly where the reduced one leads to the same powers. -/
theorem raises_iff (w : NativeSize) (l : LimbT) :
    (∀ (a : WordVector) (b : ℕ), 2 ≤ a.modulus → a.modulus < 2 ^ w.bits → a.Reduced →
      (NativeRaises w a b ↔ OrdersDivide a.values a.modulus b)) ∧
    ∀ (a : Mubintvec) (b : Ubint), 2 ≤ Ubint.number l a.modulus → Ubint.Normalised l a.modulus →
      (∀ x ∈ a.values, Ubint.Normalised l x) → Ubint.Normalised l b →
      (∀ x ∈ a.values, Ubint.PowersFit (Ubint.number l x) (Ubint.number l b % Ubint.number l a.modulus)
        (Ubint.number l a.modulus)) →
      (BigRaises l a b ↔ OrdersDivide (a.values.map (Ubint.number l)) (Ubint.number l a.modulus) (Ubint.number l b)) :=
  ⟨fun _ b h2 word ha => nativeRaises_iff h2 word ha b,
    fun _ _ h2 hm ha hb fits => bigRaises_iff h2 hm ha hb fits⟩

/-- Six divides forty-two, so modulo seven the exponents `42` and `0` are the same. -/
theorem forty_second_powers :
    NativeRaises .w64 ⟨[2, 3], 7⟩ 42 ∧
      BigRaises .uint64 ⟨[.stored .uint64 2, .stored .uint64 3], .stored .uint64 7⟩ (.stored .uint64 42) := by
  have orders : OrdersDivide [2, 3] 7 42 := by
    refine (powers_reduced_iff (by decide) _ _).mp ?_
    decide
  have normalised : ∀ x, x < 64 → Ubint.Normalised .uint64 (.stored .uint64 x) := by
    intro x hx
    exact Ubint.stored_normalised ((Nat.size_le_size hx.le).trans_lt (by decide))
  refine ⟨((raises_iff .w64 .uint64).1 ⟨[2, 3], 7⟩ 42 (by decide) (by decide) (by decide)).mpr orders, ?_⟩
  refine ((raises_iff .w64 .uint64).2 ⟨[.stored .uint64 2, .stored .uint64 3], .stored .uint64 7⟩ (.stored .uint64 42) ?_ ?_ ?_ ?_
    ?_).mpr ?_
  · rw [Ubint.number_stored]
    decide
  · exact normalised 7 (by decide)
  · simp [normalised]
  · exact normalised 42 (by decide)
  · intro x _
    simp only [Ubint.number_stored]
    exact Ubint.powersFit_of_square (by decide) (by decide)
  · simpa only [List.map_cons, List.map_nil, Ubint.number_stored] using orders

/-- Modulo seven an exponent of seven is reduced to zero. -/
theorem two_to_the_seventh :
    ¬ NativeRaises .w64 ⟨[2], 7⟩ 7 ∧ ¬ BigRaises .uint64 ⟨[⟨2, [2]⟩], ⟨3, [7]⟩⟩ ⟨3, [7]⟩ := by
  constructor
  · rintro ⟨r, -, run, -, powers, -⟩
    have returned : (⟨[2], 7⟩ : WordVector).modExp .w64 7 = .ok ⟨[1], 7⟩ := by decide +kernel
    rw [returned] at run
    cases run
    exact absurd powers (by decide)
  · rintro ⟨r, -, run, -, powers, -⟩
    have returned : (⟨[⟨2, [2]⟩], ⟨3, [7]⟩⟩ : Mubintvec).modExp .uint64 ⟨3, [7]⟩ = .ok ⟨[⟨1, [1]⟩], ⟨3, [7]⟩⟩ := by decide +kernel
    rw [returned] at run
    cases run
    cases powers with
    | cons same rest => exact absurd same.2 (by decide)

end VectorPowers
end MultiKeyFHE
