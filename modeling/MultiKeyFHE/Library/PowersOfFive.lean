import Mathlib.RingTheory.ZMod.UnitsCyclic

/-!
# Powers of five modulo a power of two

Modulo `2 ^ (e + 2)` the powers of five have period `2 ^ e`, and with their negatives they are the odd residues, each
written once. `residue` reads such a signed power.
-/

namespace PowersOfFive
variable {e : ℕ}

def modulus (e : ℕ) : ℕ := 2 ^ (e + 2)

theorem modulus_eq (e : ℕ) : modulus e = 4 * 2 ^ e := by rw [modulus, pow_add, mul_comm]; rfl

theorem four_dvd (e : ℕ) : 4 ∣ modulus e := ⟨2 ^ e, modulus_eq e⟩

theorem modulus_pos (e : ℕ) : 0 < modulus e := by
  rw [modulus_eq]
  positivity

theorem pow_mod_four (e i : ℕ) : 5 ^ i % modulus e % 4 = 1 := by
  rw [Nat.mod_mod_of_dvd _ (four_dvd e), Nat.pow_mod]
  norm_num

theorem pow_period (e : ℕ) : 5 ^ 2 ^ e ≡ 1 [MOD modulus e] := by
  apply (ZMod.natCast_eq_natCast_iff _ _ _).mp
  have order := pow_orderOf_eq_one (5 : ZMod (2 ^ (e + 2)))
  rw [ZMod.orderOf_five] at order
  exact_mod_cast order

theorem pow_injective {i j : ℕ} (hi : i < 2 ^ e) (hj : j < 2 ^ e) (same : 5 ^ i % modulus e = 5 ^ j % modulus e) : i = j := by
  have powers : (5 : ZMod (2 ^ (e + 2))) ^ i = 5 ^ j := by
    have := (ZMod.natCast_eq_natCast_iff _ _ (2 ^ (e + 2))).mpr same
    exact_mod_cast this
  rw [← ZMod.orderOf_five] at hi hj
  exact pow_injOn_Iio_orderOf hi hj powers

/-- `5 ^ i`, or its negative. -/
def residue (e : ℕ) (negative : Bool) (i : ℕ) : ℕ :=
  if negative then modulus e - 5 ^ i % modulus e else 5 ^ i % modulus e

theorem residue_mod_four (negative : Bool) (i : ℕ) : residue e negative i % 4 = if negative then 3 else 1 := by
  have one := pow_mod_four e i
  have below := Nat.mod_lt (5 ^ i) (modulus_pos e)
  have quarter := four_dvd e
  cases negative
  · exact one
  · simp only [residue, if_true]
    omega

theorem residue_odd (negative : Bool) (i : ℕ) : residue e negative i % 2 = 1 := by
  have four := residue_mod_four (e := e) negative i
  split at four <;> omega

theorem residue_lt (negative : Bool) (i : ℕ) : residue e negative i < modulus e := by
  have one := pow_mod_four e i
  have below := Nat.mod_lt (5 ^ i) (modulus_pos e)
  cases negative
  · exact below
  · simp only [residue, if_true]
    omega

theorem residue_injective {negative negative' : Bool} {i j : ℕ} (hi : i < 2 ^ e) (hj : j < 2 ^ e)
    (same : residue e negative i = residue e negative' j) : negative = negative' ∧ i = j := by
  have sign : negative = negative' := by
    have left := residue_mod_four (e := e) negative i
    have right := residue_mod_four (e := e) negative' j
    rw [same] at left
    cases negative <;> cases negative' <;> simp_all
  subst sign
  refine ⟨rfl, pow_injective (e := e) hi hj ?_⟩
  cases negative
  · exact same
  · have left := Nat.mod_lt (5 ^ i) (modulus_pos e)
    have right := Nat.mod_lt (5 ^ j) (modulus_pos e)
    simp only [residue, if_true] at same
    omega

theorem residue_modEq (negative : Bool) (i : ℕ) :
    (residue e negative i : ℤ) ≡ (if negative then -1 else 1) * 5 ^ i [ZMOD modulus e] := by
  have power : ((5 ^ i % modulus e : ℕ) : ℤ) ≡ 5 ^ i [ZMOD modulus e] := by
    push_cast
    exact Int.mod_modEq _ _
  cases negative
  · simpa [residue] using power
  · have below := Nat.mod_lt (5 ^ i) (modulus_pos e)
    simp only [residue, if_true]
    rw [Nat.cast_sub below.le, neg_one_mul]
    simpa using (Int.ModEq.refl (n := (modulus e : ℤ)) (modulus e : ℤ)).sub power |>.trans
      (Int.modEq_iff_dvd.mpr ⟨-1, by ring⟩ : (modulus e : ℤ) - 5 ^ i ≡ -5 ^ i [ZMOD modulus e])

/-- There are as many odd residues as signed powers. -/
theorem exists_residue {w : ℕ} (below : w < modulus e) (odd : w % 2 = 1) :
    ∃ negative i, i < 2 ^ e ∧ w = residue e negative i := by
  classical
  let f : Bool × Fin (2 ^ e) → Fin (2 * 2 ^ e) := fun x =>
    ⟨residue e x.1 x.2 / 2, by
      have lt := residue_lt (e := e) x.1 x.2
      rw [modulus_eq] at lt
      omega⟩
  have injective : Function.Injective f := by
    intro x y same
    have halves : residue e x.1 x.2 / 2 = residue e y.1 y.2 / 2 := congrArg Fin.val same
    have hx := residue_odd (e := e) x.1 x.2
    have hy := residue_odd (e := e) y.1 y.2
    obtain ⟨sign, power⟩ := residue_injective (e := e) x.2.isLt y.2.isLt (show residue e x.1 x.2 = residue e y.1 y.2 by omega)
    exact Prod.ext sign (Fin.ext power)
  have surjective := (Fintype.bijective_iff_injective_and_card f).mpr ⟨injective, by simp⟩
  rw [modulus_eq] at below
  obtain ⟨⟨negative, i⟩, image⟩ := surjective.2 ⟨w / 2, by omega⟩
  have half : residue e negative i / 2 = w / 2 := congrArg Fin.val image
  have hx := residue_odd (e := e) negative i
  exact ⟨negative, i, i.isLt, by omega⟩

end PowersOfFive
