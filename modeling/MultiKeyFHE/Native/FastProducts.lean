import MultiKeyFHE.Native.Modular

/-!
# Fast products and reductions

The operations of `ubintnat.h` that take a precomputed value: the Barrett products and reductions with `mu`, and the
product with a prepared constant. They are compared with the plain ones. The Barrett constant of one modulus loses its
only bit, and an operand that is long next to the modulus leaves more than one correction can take off.
-/

namespace MultiKeyFHE.NativeInteger
variable (w : NativeSize)

/-- `ModMulFastEq(b, modulus, mu)`: the lines of `ModMulFast`, in place. -/
def modMulFastEqMu (a b modulus mu : ℕ) : ℕ := modMulFastMu w a b modulus mu

/-- `ModEq(modulus, mu)`: the lines of `Mod`, in place. -/
def modEqMu (a modulus mu : ℕ) : ℕ := modMu w a modulus mu

/-- An operand that is not below the modulus goes through `ModMu`. -/
def reduceMu (a modulus mu : ℕ) : ℕ := if a ≥ modulus then modMu w a modulus mu else a

def modAddMu (a b modulus mu : ℕ) : ℕ := modAddFast w (reduceMu w a modulus mu) (reduceMu w b modulus mu) modulus

def modSubMu (a b modulus mu : ℕ) : ℕ := modSubFast w (reduceMu w a modulus mu) (reduceMu w b modulus mu) modulus

/-- `ModMul(b, modulus)`. -/
def modMul (a b modulus : ℕ) : ℕ :=
  mulReduce w (if a ≥ modulus then a % modulus else a) (if b ≥ modulus then b % modulus else b) modulus

variable {w} {m a b : ℕ}

theorem not_modulusTooLarge (hm : m < 2 ^ (w.bits - 4)) : ¬ modulusTooLarge w m := by
  have bits := w.bits_eq
  rw [show w.bits - 4 = w.maxModulusSize by omega] at hm
  exact Nat.not_lt.mpr (Nat.size_le.mpr hm)

/-! ### Products of residues -/

/-- Every product is the residue of `a * b`. The one with a prepared constant takes any word for the other factor. -/
structure ProductsAgree (w : NativeSize) (m a b : ℕ) : Prop where
  fast : mulReduce w a b m = a * b % m
  barrett : modMulFastMu w a b m (computeMu w m) = a * b % m
  barrettEq : modMulFastEqMu w a b m (computeMu w m) = a * b % m
  checked : modMulMu w a b m (computeMu w m) = a * b % m
  constant : ∃ bInv, prepModMulConst w b m = .ok bInv ∧ ∀ c < 2 ^ w.bits, modMulFastConst w c b m bInv = c * b % m

/-- What is cut to one word on the way fits one: `mu`, the product that `RShiftD` has shifted, what the estimate leaves of
it, and the prepared constant. -/
structure NothingDropped (w : NativeSize) (m a b : ℕ) : Prop where
  mu : 2 ^ (2 * m.size + 3) / m < 2 ^ w.bits
  shifted : a * b / 2 ^ (m.size - 2) < 2 ^ w.bits
  rest : a * b - m * barrettQuotient w (a * b) m < 2 ^ w.bits
  prepared : b * 2 ^ w.bits / m < 2 ^ w.bits

section Products
variable (h2 : 2 ≤ m) (hm : m < 2 ^ (w.bits - 4)) (ha : a < m) (hb : b < m)
include h2 hm ha hb

theorem mulReduce_eq : mulReduce w a b m = a * b % m := by
  have word := lt_of_not_tooLarge (not_modulusTooLarge hm)
  obtain ⟨below, same⟩ := mulReduce_spec (w := w) (show 0 < m by omega) (show a < 2 ^ w.bits by omega)
    (show b < 2 ^ w.bits by omega)
  rw [← same, Nat.mod_eq_of_lt below]

theorem modMulFastMu_eq_iff : modMulFastMu w a b m (computeMu w m) = a * b % m ↔ ProductFits w m (a * b) := by
  have admitted := not_modulusTooLarge hm
  rw [← modMulFastMu_lt_iff h2 admitted ha hb]
  constructor
  · intro right
    rw [right]
    exact Nat.mod_lt _ (by omega)
  · exact modMulFastMu_eq_of_lt h2 admitted ha hb

theorem productsAgree_iff : ProductsAgree w m a b ↔ ProductFits w m (a * b) := by
  have word := lt_of_not_tooLarge (not_modulusTooLarge hm)
  have barrett := modMulFastMu_eq_iff h2 hm ha hb
  refine ⟨fun agree => barrett.mp agree.barrett, fun fits => ?_⟩
  have right := barrett.mpr fits
  refine ⟨mulReduce_eq h2 hm ha hb, right, right, ?_, wrap w (b * 2 ^ w.bits / m), ?_, fun c hc => ?_⟩
  · rw [modMulMu, if_neg (by omega), if_neg (by omega), right]
  · rw [prepModMulConst, if_neg (by omega)]
  · exact modMulFastConst_eq hc hb (by omega)

theorem nothingDropped_iff : NothingDropped w m a b ↔ m ≠ 2 ^ (w.maxModulusSize - 1) := by
  have admitted := not_modulusTooLarge hm
  have word := lt_of_not_tooLarge admitted
  constructor
  · rintro fits rfl
    have exponent : 2 * (w.maxModulusSize - 1 + 1) + 3 = w.maxModulusSize - 1 + w.bits := by cases w <;> rfl
    have mu := fits.mu
    rw [Nat.size_pow, exponent, pow_add, Nat.mul_div_cancel_left _ (by positivity)] at mu
    exact absurd mu (lt_irrefl _)
  · intro other
    have mu := mu_fits h2 admitted other
    have close := lt_barrett_product h2 admitted ha hb mu
    refine ⟨mu, shifted_fits h2 admitted ha hb, ?_, ?_⟩
    · rw [mul_add] at close
      omega
    · exact Nat.div_lt_of_lt_mul (Nat.mul_lt_mul_of_pos_right hb (by positivity))

/-- Only the largest power of two has another `mu` than the exact one. Modulo it the products with `mu` are right as long
as the word that the plain product leaves needs one correction. -/
theorem fastProducts_agree_iff :
    (ProductsAgree w m a b ∧ NothingDropped w m a b ↔ m ≠ 2 ^ (w.maxModulusSize - 1)) ∧
      (ProductsAgree w m a b ↔ ProductFits w m (a * b)) := by
  have agree := productsAgree_iff h2 hm ha hb
  have dropped := nothingDropped_iff h2 hm ha hb
  refine ⟨⟨fun both => dropped.mp both.2, fun other => ⟨agree.mpr ?_, dropped.mpr other⟩⟩, agree⟩
  exact fun largest => absurd largest other

end Products

theorem products_of_seventeen_agree : ProductsAgree .w64 17 12 15 ∧ NothingDropped .w64 17 12 15 :=
  (fastProducts_agree_iff (by decide) (by decide) (by decide) (by decide)).1.mpr (by decide)

/-- The largest residues modulo `2 ^ 59`. -/
theorem largest_power_disagrees : ¬ ProductsAgree .w64 (2 ^ 59) (2 ^ 59 - 1) (2 ^ 59 - 1) := fun agree =>
  absurd ((productsAgree_iff (by decide) (by decide) (by decide) (by decide)).mp agree) (by decide)

/-! ### Reductions of any word -/

/-- The two cuts of the Barrett estimate, of the operand and of `mu`, lose at most one of the quotient. -/
def Sharp (w : NativeSize) (m a : ℕ) : Prop :=
  (a / m - 1) * 2 ^ (m.size + 5) ≤ a / 2 ^ (m.size - 2) * computeMu w m

instance (m a : ℕ) : Decidable (Sharp w m a) := inferInstanceAs (Decidable (_ ≤ _))

section Reductions
variable (h2 : 2 ≤ m) (ha : a < 2 ^ w.bits) (hb : b < 2 ^ w.bits)
include h2 ha

theorem sharp_iff_lt : Sharp w m a ↔ a < m * (barrettQuotient w a m + 2) := by
  obtain ⟨long, -, -⟩ := size_bounds h2
  have shift : rShiftD w a (m.size - 2) = a / 2 ^ (m.size - 2) := wrap_of_lt ((Nat.div_le_self ..).trans_lt ha)
  have cut : Sharp w m a ↔ a / m - 1 ≤ barrettQuotient w a m := by
    rw [barrettQuotient, shift, Nat.le_div_iff_mul_le (by positivity), show m.size - 2 + 7 = m.size + 5 by omega]
    rfl
  have quotient : a / m < barrettQuotient w a m + 2 ↔ a < m * (barrettQuotient w a m + 2) := by
    rw [mul_comm]
    exact Nat.div_lt_iff_lt_mul (by omega)
  rw [cut, ← quotient]
  omega

theorem sharp_of_lt (hm : m < 2 ^ (w.bits - 4)) (other : m ≠ 2 ^ (w.maxModulusSize - 1)) (short : a < 2 ^ (2 * m.size)) :
    Sharp w m a :=
  (sharp_iff_lt h2 ha).mpr (lt_barrettQuotient_mul h2 short ((Nat.div_le_self ..).trans_lt ha)
    (mu_fits h2 (not_modulusTooLarge hm) other))

theorem modMu_eq : modMu w a m (computeMu w m) =
    let r := a - m * barrettQuotient w a m
    if r ≥ m then r - m else r := by
  have le := barrettQuotient_mul_le (w := w) (x := a) h2
  rw [modMu]
  change (let r := sub w a (wrap w (barrettQuotient w a m * m)); if r ≥ m then r - m else r) = _
  rw [mul_comm, wrap_of_lt (le.trans_lt ha), sub_of_le le ha]

theorem modMu_eq_iff : modMu w a m (computeMu w m) = a % m ↔ Sharp w m a := by
  have le := barrettQuotient_mul_le (w := w) (x := a) h2
  rw [sharp_iff_lt h2 ha, modMu_eq h2 ha, mul_add]
  generalize barrettQuotient w a m = q at le
  have residue : (a - m * q) % m = a % m := Nat.sub_mul_mod le
  have below := Nat.mod_lt a (show 0 < m by omega)
  dsimp only
  split
  · rename_i more
    constructor
    · omega
    · intro close
      rw [← residue, Nat.mod_eq_sub_mod more, Nat.mod_eq_of_lt (by omega)]
  · refine iff_of_true ?_ (by omega)
    rw [← residue, Nat.mod_eq_of_lt (by omega)]

theorem reduceMu_eq (sharp : Sharp w m a) : reduceMu w a m (computeMu w m) = a % m := by
  unfold reduceMu
  split
  · exact (modMu_eq_iff h2 ha).mpr sharp
  · exact (Nat.mod_eq_of_lt (by omega)).symm

end Reductions

/-- The operations with `mu` on two words return what those without it do, a residue. -/
structure ReducesAlike (w : NativeSize) (m a b : ℕ) : Prop where
  mod : modMu w a m (computeMu w m) = a % m ∧ modMu w b m (computeMu w m) = b % m
  modEq : modEqMu w a m (computeMu w m) = a % m ∧ modEqMu w b m (computeMu w m) = b % m
  add : modAddMu w a b m (computeMu w m) = modAdd w a b m ∧ modAdd w a b m < m
  sub : modSubMu w a b m (computeMu w m) = modSub w a b m ∧ modSub w a b m < m
  mul : modMulMu w a b m (computeMu w m) = modMul w a b m ∧ modMul w a b m < m

theorem modMul_eq (h2 : 2 ≤ m) (hm : m < 2 ^ (w.bits - 4)) (a b : ℕ) : modMul w a b m = a % m * (b % m) % m := by
  have reduce : ∀ x, (if x ≥ m then x % m else x) = x % m := by
    intro x
    split
    · rfl
    · exact (Nat.mod_eq_of_lt (by omega)).symm
  rw [modMul, reduce, reduce]
  exact mulReduce_eq h2 hm (Nat.mod_lt _ (by omega)) (Nat.mod_lt _ (by omega))

/-- An operand that is not below the modulus has to be one for which the estimate is sharp, and the product of the
residues one that fits. -/
theorem reducesAlike_iff (h2 : 2 ≤ m) (hm : m < 2 ^ (w.bits - 4)) (ha : a < 2 ^ w.bits) (hb : b < 2 ^ w.bits) :
    ReducesAlike w m a b ↔ Sharp w m a ∧ Sharp w m b ∧ ProductFits w m (a % m * (b % m)) := by
  have word := lt_of_not_tooLarge (not_modulusTooLarge hm)
  have hpos : 0 < m := by omega
  have lowA := Nat.mod_lt a hpos
  have lowB := Nat.mod_lt b hpos
  have product := modMulFastMu_eq_iff (w := w) h2 hm lowA lowB
  have checked : Sharp w m a → Sharp w m b →
      modMulMu w a b m (computeMu w m) = modMulFastMu w (a % m) (b % m) m (computeMu w m) := by
    intro sharpA sharpB
    change modMulFastMu w (reduceMu w a m _) (reduceMu w b m _) m _ = _
    rw [reduceMu_eq h2 ha sharpA, reduceMu_eq h2 hb sharpB]
  constructor
  · intro alike
    have sharpA := (modMu_eq_iff h2 ha).mp alike.mod.1
    have sharpB := (modMu_eq_iff h2 hb).mp alike.mod.2
    refine ⟨sharpA, sharpB, product.mp ?_⟩
    rw [← checked sharpA sharpB, alike.mul.1, modMul_eq h2 hm]
  · rintro ⟨sharpA, sharpB, fits⟩
    have modA := (modMu_eq_iff h2 ha).mpr sharpA
    have modB := (modMu_eq_iff h2 hb).mpr sharpB
    refine ⟨⟨modA, modB⟩, ⟨modA, modB⟩, ⟨?_, modAddFast_lt lowA lowB (by omega)⟩,
      ⟨?_, modSubFast_lt lowA lowB (by omega)⟩, ?_, ?_⟩
    · rw [modAddMu, reduceMu_eq h2 ha sharpA, reduceMu_eq h2 hb sharpB, modAdd]
    · rw [modSubMu, reduceMu_eq h2 ha sharpA, reduceMu_eq h2 hb sharpB, modSub]
    · rw [checked sharpA sharpB, product.mpr fits, modMul_eq h2 hm]
    · rw [modMul_eq h2 hm]
      exact Nat.mod_lt _ hpos

theorem words_modulo_seventeen_reduce_alike : ReducesAlike .w64 17 1000 600 :=
  (reducesAlike_iff (by decide) (by decide) (by decide) (by decide)).mpr (by decide)

/-- An operand of thirteen bits modulo seventeen. -/
theorem thirteen_bits_not_reduced : modMu .w64 8143 17 (computeMu .w64 17) = 17 ∧ ¬ ReducesAlike .w64 17 8143 8143 :=
  ⟨by decide, fun alike => absurd alike.mod.1 (by decide)⟩

end MultiKeyFHE.NativeInteger
