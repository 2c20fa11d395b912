import MultiKeyFHE.Native.Vector
import MultiKeyFHE.Rns.DCRTPoly

/-!
# Dropping the last tower

`DropLastElementAndScale` divides by the last modulus and rounds. `ModReduce` divides exactly, after it has added a multiple of
the plaintext modulus. Both work on the towers alone, with constants that the parameter classes compute.
-/

namespace MultiKeyFHE
open Negacyclic NegPoly NativeInteger NativeVector Residues

namespace DCRTPoly
variable {n N : ℕ} {B : Basis (Fin (n + 1))}

/-- `DropLastElement`. -/
def dropLastElement (a : DCRTPoly B N) : Except Fault (DCRTPoly B.init N) :=
  if n + 1 = 1 then .error (.configError "Removing last element of DCRTPoly object renders it invalid!")
  else .ok ⟨a.format, fun i => a.vectors i.castSucc⟩

/-- `m_vectors.back()`. -/
def back (a : DCRTPoly B N) : Tower N B.last := a.vectors (Fin.last n)

section Constants
variable (B)

/-- `QlQlInvModqlDivqlModq`. -/
def qlQlInvModqlDivqlModq (i : Fin n) : ℕ := inverse B.init.modulus B.last * B.init.modulus / B.last % B.init.q i

/-- `qlInvModq`. -/
def qlInvModq (i : Fin n) : ℕ := inverse B.last (B.init.q i)

end Constants

/-- What one pass of the loop of `DropLastElementAndScale` adds. -/
def scaledLast (w : NativeSize) (format : Format) (lastPoly : Tower N B.last) (i : Fin n) : Tower N (B.init.q i) :=
  let tmp := (lastPoly.switchModulus w (B.init.q i)).timesEq (qlQlInvModqlDivqlModq B i)
  if format = .evaluation then tmp.switchFormat else tmp

/-- One pass of the loop of `DropLastElementAndScale`. -/
def scaleTower (w : NativeSize) (format : Format) (lastPoly : Tower N B.last) (i : Fin n) (v : Tower N (B.init.q i)) :
    Tower N (B.init.q i) :=
  let v := (v.timesEq (qlInvModq B i)).plusEq (scaledLast w format lastPoly i)
  if format = .coefficient then v.switchFormat else v

/-- `DropLastElementAndScale`. -/
def dropLastElementAndScale (w : NativeSize) (a : DCRTPoly B N) : Except Fault (DCRTPoly B.init N) := do
  let lastPoly := a.back.setFormat .coefficient
  let a ← a.dropLastElement
  return { a with vectors := fun i => scaleTower w a.format lastPoly i (a.vectors i) }

/-- What one pass of the loop of `ModReduce` adds, before it is multiplied by `t`. -/
def deltaTower (w : NativeSize) (format : Format) (delta : Tower N B.last) (i : Fin n) : Tower N (B.init.q i) :=
  let tmp := delta.switchModulus w (B.init.q i)
  if format = .evaluation then tmp.switchFormat else tmp

/-- One pass of the loop of `ModReduce`. -/
def reduceTower (w : NativeSize) (format : Format) (t : ℕ) (delta : Tower N B.last) (i : Fin n) (v : Tower N (B.init.q i)) :
    Tower N (B.init.q i) := (v.plusEq ((deltaTower w format delta i).timesEq t)).timesEq (qlInvModq B i)

/-- `ModReduce`, with `negtInvModq` of the last modulus. -/
def modReduce (w : NativeSize) (t : ℕ) (a : DCRTPoly B N) : Except Fault (DCRTPoly B.init N) := do
  let delta := (a.back.setFormat .coefficient).timesEq (B.last - inverse t B.last)
  let a ← a.dropLastElement
  return { a with vectors := fun i => reduceTower w a.format t delta i (a.vectors i) }

/-! ### The quotients -/

/-- A division by `m` of `X` and what was added to it. -/
theorem exists_quotients {m : ℕ} {X D : NegPoly N ℤ} (divides : ∀ j, X.coeff j + D.coeff j ≡ 0 [ZMOD m]) :
    ∃ Y : NegPoly N ℤ, ∀ j, m * Y.coeff j = X.coeff j + D.coeff j := by
  choose y hy using fun j => Int.modEq_zero_iff_dvd.mp (divides j)
  exact ⟨⟨y⟩, fun j => (hy j).symm⟩

/-- The inverse of the last modulus turns an exact multiple of it into the quotient. -/
theorem quotient_modEq {q m : ℕ} (coprime : m.Coprime q) {x y : ℤ} (exact : m * y = x) : x * inverse m q ≡ y [ZMOD q] := by
  calc x * inverse m q = y * (m * inverse m q) := by rw [← exact]; ring
    _ ≡ y * 1 [ZMOD q] := (inverse_modEq coprime).mul_left y
    _ = y := mul_one y

/-- The constant of `DropLastElementAndScale` is the negated inverse of the last modulus. -/
theorem qlQlInvModqlDivqlModq_modEq (i : Fin n) : (qlQlInvModqlDivqlModq B i : ℤ) ≡ -qlInvModq B i [ZMOD B.init.q i] := by
  have wide := B.two_le_last
  have other := B.last_coprime i
  obtain ⟨t, ht⟩ : ∃ t : ℕ, inverse B.init.modulus B.last * B.init.modulus = 1 + B.last * t := by
    have one : inverse B.init.modulus B.last * B.init.modulus ≡ 1 [MOD B.last] := by
      rw [← Int.natCast_modEq_iff, mul_comm]
      exact_mod_cast inverse_modEq B.init_coprime_last
    refine ⟨inverse B.init.modulus B.last * B.init.modulus / B.last, ?_⟩
    have rest := Nat.mod_add_div (inverse B.init.modulus B.last * B.init.modulus) B.last
    rw [one, Nat.mod_eq_of_lt (by omega)] at rest
    exact rest.symm
  have quotient : inverse B.init.modulus B.last * B.init.modulus / B.last = t := by
    rw [ht, Nat.add_mul_div_left _ _ (by omega), Nat.div_eq_of_lt (by omega), zero_add]
  rw [qlQlInvModqlDivqlModq, quotient, Int.natCast_mod]
  refine (Int.mod_modEq _ _).trans (cancel_left other ?_)
  have whole : (B.last * t : ℤ) = inverse B.init.modulus B.last * B.init.modulus - 1 := by
    have : (inverse B.init.modulus B.last * B.init.modulus : ℤ) = 1 + B.last * t := by exact_mod_cast ht
    linarith
  have multiple : (inverse B.init.modulus B.last * B.init.modulus : ℤ) ≡ 0 [ZMOD B.init.q i] :=
    Int.modEq_zero_iff_dvd.mpr ((Int.natCast_dvd_natCast.mpr (B.init.dvd_modulus i)).mul_left _)
  calc (B.last * t : ℤ) = inverse B.init.modulus B.last * B.init.modulus - 1 := whole
    _ ≡ 0 - 1 [ZMOD B.init.q i] := multiple.sub_right 1
    _ ≡ -(B.last * qlInvModq B i) [ZMOD B.init.q i] := by
      rw [zero_sub]
      exact (inverse_modEq other).symm.neg
    _ = B.last * -qlInvModq B i := by ring

/-! ### Rounding and exact division -/

section Division
variable [NeZero N] {w : NativeSize} {a : DCRTPoly B N} {X : NegPoly N ℤ}

/-- What `SwitchModulus` carries from the last tower to the others. -/
def carried {m : ℕ} (t : Tower N m) : NegPoly N ℤ := ⟨fun j => centered m (t.poly.coeff j).val⟩

omit [NeZero N] in
theorem two_mul_carried_le {m : ℕ} [NeZero m] (t : Tower N m) (j : Fin N) : 2 * |(carried t).coeff j| ≤ m := by
  have below := ZMod.val_lt (t.poly.coeff j)
  have bound : |centered m (t.poly.coeff j).val| ≤ (m / 2 : ℕ) := by
    rw [abs_le, centered]
    split <;> omega
  change 2 * |centered m _| ≤ _
  omega

theorem residue_carried {m : ℕ} [NeZero m] (t : Tower N m) : residue m (carried t) = t.poly := by
  ext j
  rw [coeff_residue, carried, (ZMod.intCast_eq_intCast_iff _ _ _).mpr (centered_modEq m _)]
  simp

theorem switchModulus_poly {m q : ℕ} [NeZero m] [NeZero q] (fits : ¬ modulusTooLarge w m) (fits' : ¬ modulusTooLarge w q)
    (t : Tower N m) : (t.switchModulus w q).poly = residue q (carried t) := by
  have room := lt_of_not_tooLarge fits
  have room' := lt_of_not_tooLarge fits'
  ext j
  rw [coeff_residue]
  change ((NativeVector.switchModulus w m q (t.poly.coeff j).val : ℕ) : ZMod q) = _
  rw [← Int.cast_natCast, ZMod.intCast_eq_intCast_iff]
  exact switchModulus_cast (ZMod.val_lt _) (NeZero.pos q) (by omega)

theorem back_modEq (represents : a.Represents X) (j : Fin N) : (a.back.poly.coeff j : ZMod B.last) = X.coeff j := by
  rw [back, represents, coeff_residue]
  rfl

section Rounding
variable (fits : ∀ i, ¬ modulusTooLarge w (B.q i)) {format : Format} {last : Tower N B.last} {i : Fin n}
  {v : Tower N (B.init.q i)}

include fits in
theorem coeff_scaledLast (j : Fin N) :
    (scaledLast w format last i).poly.coeff j = (-(qlInvModq B i * (carried last).coeff j) : ℤ) := by
  have constant := (ZMod.intCast_eq_intCast_iff _ _ _).mpr (qlQlInvModqlDivqlModq_modEq (B := B) i)
  have carry : (last.switchModulus w (B.init.q i)).poly.coeff j = ((carried last).coeff j : ZMod _) := by
    rw [switchModulus_poly (m := B.last) (q := B.init.q i) (fits _) (fits i.castSucc), coeff_residue]
  have value : ((last.switchModulus w (B.init.q i)).timesEq (qlQlInvModqlDivqlModq B i)).poly.coeff j =
      (-(qlInvModq B i * (carried last).coeff j) : ℤ) := by
    rw [Tower.coeff_timesEq, carry]
    push_cast at constant ⊢
    rw [constant, neg_mul]
  rw [scaledLast]
  split <;> exact value

include fits in
theorem scaleTower_poly (holds : v.poly = residue _ X) {Y : NegPoly N ℤ}
    (exact : ∀ j, B.last * Y.coeff j = X.coeff j + (-carried last).coeff j) :
    (scaleTower w format last i v).poly = residue _ Y := by
  have value : ((v.timesEq (qlInvModq B i)).plusEq (scaledLast w format last i)).poly = residue _ Y := by
    ext j
    rw [Tower.plusEq_poly, coeff_add, coeff_scaledLast fits, Tower.coeff_timesEq, holds, coeff_residue, coeff_residue]
    have quotient := (ZMod.intCast_eq_intCast_iff _ _ _).mpr (quotient_modEq (B.last_coprime i) (exact j))
    rw [← quotient, coeff_neg, qlInvModq]
    push_cast
    ring
  rw [scaleTower]
  split <;> exact value

omit [NeZero N] in
theorem scaleTower_format (same : v.format = format) : (scaleTower w format last i v).format = .evaluation := by
  rw [scaleTower]
  cases format with
  | evaluation =>
    rw [if_neg (by decide)]
    exact same
  | coefficient =>
    rw [if_pos rfl]
    change v.format.other = _
    rw [same]
    rfl

end Rounding

section Reduction
variable (fits : ∀ i, ¬ modulusTooLarge w (B.q i)) {format : Format} {delta : Tower N B.last} {i : Fin n}
  {v : Tower N (B.init.q i)} {t : ℕ}

include fits in
theorem deltaTower_poly : (deltaTower w format delta i).poly = residue _ (carried delta) := by
  have carry := switchModulus_poly (q := B.init.q i) (fits _) (fits i.castSucc) delta
  rw [deltaTower]
  split <;> exact carry

include fits in
theorem reduceTower_poly (holds : v.poly = residue _ X) {Y : NegPoly N ℤ}
    (exact : ∀ j, B.last * Y.coeff j = X.coeff j + t * (carried delta).coeff j) :
    (reduceTower w format t delta i v).poly = residue _ Y := by
  ext j
  have quotient := (ZMod.intCast_eq_intCast_iff _ _ _).mpr (quotient_modEq (B.last_coprime i) (exact j))
  rw [reduceTower, Tower.coeff_timesEq, Tower.plusEq_poly, coeff_add, Tower.coeff_timesEq, deltaTower_poly fits, holds,
    coeff_residue, coeff_residue, coeff_residue, ← quotient, qlInvModq]
  push_cast
  ring

end Reduction

omit [NeZero N] in
theorem dropLastElement_ok [NeZero n] : a.dropLastElement = .ok ⟨a.format, fun i => a.vectors i.castSucc⟩ :=
  if_neg (by simp [NeZero.ne n])

/-- `DropLastElementAndScale` divides by the last modulus and rounds to the nearest. It leaves the towers as evaluations in
either format, but keeps the format of the whole. -/
theorem dropLastElementAndScale_spec [NeZero n] (fits : ∀ i, ¬ modulusTooLarge w (B.q i)) (consistent : a.Consistent)
    (represents : a.Represents X) :
    ∃ c Y, a.dropLastElementAndScale w = .ok c ∧ c.format = a.format ∧ (∀ i, (c.vectors i).format = .evaluation) ∧
      c.Represents Y ∧ ∀ j, 2 * |B.last * Y.coeff j - X.coeff j| ≤ B.last := by
  have carries : ∀ j, X.coeff j + (-carried (a.back.setFormat .coefficient)).coeff j ≡ 0 [ZMOD B.last] := by
    intro j
    have same := congrArg (fun p => p.coeff j) (residue_carried (a.back.setFormat .coefficient))
    rw [← ZMod.intCast_eq_intCast_iff]
    simp only [coeff_residue, Tower.setFormat_poly] at same
    rw [back_modEq represents] at same
    push_cast
    rw [coeff_neg, Int.cast_neg, same, add_neg_cancel]
  obtain ⟨Y, exact⟩ := exists_quotients carries
  refine ⟨_, Y, by rw [dropLastElementAndScale, dropLastElement_ok]; rfl, rfl, fun i => ?_, fun i => ?_, fun j => ?_⟩
  · exact scaleTower_format (consistent i.castSucc)
  · exact scaleTower_poly fits (represents i.castSucc) exact
  · have small := two_mul_carried_le (a.back.setFormat .coefficient) j
    rw [exact j, coeff_neg, add_sub_cancel_left, abs_neg]
    exact small

/-- `ModReduce` divides by the last modulus and keeps the residue modulo `t`. -/
theorem modReduce_spec [NeZero n] (fits : ∀ i, ¬ modulusTooLarge w (B.q i)) {t : ℕ} (coprime : t.Coprime B.last)
    (consistent : a.Consistent) (represents : a.Represents X) :
    ∃ c Y, a.modReduce w t = .ok c ∧ c.format = a.format ∧ c.Consistent ∧ c.Represents Y ∧
      ∀ j, Scaled t B.last (X.coeff j) (Y.coeff j) := by
  set delta := (a.back.setFormat .coefficient).timesEq (B.last - inverse t B.last) with hdelta
  have carries : ∀ j, X.coeff j + (const (t : ℤ) * carried delta).coeff j ≡ 0 [ZMOD B.last] := by
    intro j
    have same := congrArg (fun p => p.coeff j) (residue_carried delta)
    have below := inverse_lt (a := t) (NeZero.pos B.last)
    have unit := (ZMod.intCast_eq_intCast_iff _ _ _).mpr (inverse_modEq coprime)
    push_cast at unit
    simp only [coeff_residue, hdelta, Tower.coeff_timesEq, Tower.setFormat_poly] at same
    rw [back_modEq represents, Nat.cast_sub below.le, ZMod.natCast_self, zero_sub] at same
    rw [← ZMod.intCast_eq_intCast_iff, coeff_const_mul]
    push_cast
    rw [same]
    linear_combination (-(X.coeff j : ZMod B.last)) * unit
  obtain ⟨Y, exact⟩ := exists_quotients carries
  simp only [coeff_const_mul] at exact
  refine ⟨_, Y, by rw [modReduce, dropLastElement_ok]; rfl, rfl, fun i => ?_, fun i => ?_, fun j => ?_⟩
  · exact consistent i.castSucc
  · exact reduceTower_poly fits (represents i.castSucc) exact
  · exact scaled_of_two_mul B.two_le_last (exact j) (two_mul_carried_le delta j)

end Division

end DCRTPoly

/-- Five and seven. -/
def fiveSeven : Basis (Fin 2) where
  q := ![5, 7]
  two_le := by decide
  coprime i j other := by fin_cases i <;> fin_cases j <;> first | exact absurd rfl other | decide

/-- The towers of `17 - 10X`. -/
theorem fiveSeven_scaled : ∃ c Y, (DCRTPoly.ofWords .coefficient ![![2, 0], ![3, 4]] : DCRTPoly fiveSeven 2).dropLastElementAndScale .w64 = .ok c ∧
    c.format = .coefficient ∧ (∀ i, (c.vectors i).format = .evaluation) ∧ c.Represents Y ∧
    ∀ j, 2 * |(fiveSeven.last : ℤ) * Y.coeff j - (⟨![17, -10]⟩ : NegPoly 2 ℤ).coeff j| ≤ fiveSeven.last :=
  DCRTPoly.dropLastElementAndScale_spec (by decide) (fun _ => rfl) (DCRTPoly.represents_ofWords (by decide))

end MultiKeyFHE
