import MultiKeyFHE.Native.Rounding
import MultiKeyFHE.Scheme.KeySwitch
import Mathlib.Algebra.BigOperators.Field

/-!
# The error of switching single-key ciphertexts

`RoundqQ` in double precision, `ModSwitch` and `KeySwitch` with a generated key for secrets of any kind. The errors of the
three switches that end a bootstrapping add up to one bound on the scaled phase.
-/

namespace MultiKeyFHE
open NativeInteger NativeVector Circle

/-! ### Rounding -/

/-- `floor(0.5 + v * q / Q)` in double precision. -/
def doubleRound : FloorRound := fun v q Q =>
  ⌊Binary64.round (1 / 2 + Binary64.round (Binary64.round (Binary64.round v * Binary64.round q) / Binary64.round Q))⌋.toNat

/-- How far the rounded quotients are from the quotients, for numbers below the old modulus. -/
def RoundsWithin (round : FloorRound) (q Q : ℕ) (ρ : ℚ) : Prop := ∀ v < Q, |(round v q Q : ℚ) - v * q / Q| ≤ ρ

/-- Every operation errs by one part in `2 ^ 53`. -/
theorem quotient_near {v q Q : ℕ} (pos : 0 < Q) :
    (1 - 6 / 2 ^ 53 : ℚ) * (v * q / Q) ≤
        Binary64.round (Binary64.round (Binary64.round v * Binary64.round q) / Binary64.round Q) ∧
      Binary64.round (Binary64.round (Binary64.round v * Binary64.round q) / Binary64.round Q) ≤
        (1 + 6 / 2 ^ 53 : ℚ) * (v * q / Q) := by
  have hQ : (0 : ℚ) < Q := by exact_mod_cast pos
  have hv : (0 : ℚ) ≤ v := Nat.cast_nonneg v
  have hq : (0 : ℚ) ≤ q := Nat.cast_nonneg q
  have nonneg := mul_nonneg (Binary64.round_nonneg hv) (Binary64.round_nonneg hq)
  have lowQ := Binary64.le_round hQ.le
  have highQ := Binary64.round_le hQ.le
  have posQ : 0 < Binary64.round Q := lt_of_lt_of_le (mul_pos (by norm_num) hQ) lowQ
  have quotient := div_nonneg (Binary64.round_nonneg nonneg) posQ.le
  constructor
  · calc (1 - 6 / 2 ^ 53 : ℚ) * (v * q / Q)
        ≤ ((1 - 1 / 2 ^ 53) ^ 4 / (1 + 1 / 2 ^ 53)) * (v * q / Q) :=
          mul_le_mul_of_nonneg_right (by norm_num) (by positivity)
      _ = (1 - 1 / 2 ^ 53) * ((1 - 1 / 2 ^ 53) * ((1 - 1 / 2 ^ 53) * v * ((1 - 1 / 2 ^ 53) * q)) / ((1 + 1 / 2 ^ 53) * Q)) := by
          ring
      _ ≤ (1 - 1 / 2 ^ 53) * (Binary64.round (Binary64.round v * Binary64.round q) / Binary64.round Q) := by
          refine mul_le_mul_of_nonneg_left (div_le_div₀ (Binary64.round_nonneg nonneg) ?_ posQ highQ) (by norm_num)
          refine le_trans (mul_le_mul_of_nonneg_left ?_ (by norm_num)) (Binary64.le_round nonneg)
          exact mul_le_mul (Binary64.le_round hv) (Binary64.le_round hq) (mul_nonneg (by norm_num) hq) (Binary64.round_nonneg hv)
      _ ≤ _ := Binary64.le_round quotient
  · calc Binary64.round (Binary64.round (Binary64.round v * Binary64.round q) / Binary64.round Q)
        ≤ (1 + 1 / 2 ^ 53) * (Binary64.round (Binary64.round v * Binary64.round q) / Binary64.round Q) := Binary64.round_le quotient
      _ ≤ (1 + 1 / 2 ^ 53) * ((1 + 1 / 2 ^ 53) * ((1 + 1 / 2 ^ 53) * v * ((1 + 1 / 2 ^ 53) * q)) / ((1 - 1 / 2 ^ 53) * Q)) := by
          refine mul_le_mul_of_nonneg_left (div_le_div₀ (by positivity) ?_ (mul_pos (by norm_num) hQ) lowQ) (by norm_num)
          refine (Binary64.round_le nonneg).trans (mul_le_mul_of_nonneg_left ?_ (by norm_num))
          exact mul_le_mul (Binary64.round_le hv) (Binary64.round_le hq) (Binary64.round_nonneg hq) (by positivity)
      _ = ((1 + 1 / 2 ^ 53) ^ 4 / (1 - 1 / 2 ^ 53)) * (v * q / Q) := by ring
      _ ≤ _ := mul_le_mul_of_nonneg_right (by norm_num) (by positivity)

theorem doubleRound_within (q : ℕ) {Q : ℕ} (pos : 0 < Q) : RoundsWithin doubleRound q Q (1 / 2 + (q + 1) / 2 ^ 50) := by
  intro v below
  obtain ⟨low, high⟩ := quotient_near (v := v) (q := q) pos
  have hQ : (0 : ℚ) < Q := by exact_mod_cast pos
  have small : (v : ℚ) * q / Q ≤ q := by
    rw [div_le_iff₀ hQ, mul_comm (q : ℚ)]
    exact mul_le_mul_of_nonneg_right (by exact_mod_cast below.le) (Nat.cast_nonneg q)
  have nonneg : (0 : ℚ) ≤ v * q / Q := by positivity
  rw [doubleRound]
  generalize Binary64.round (Binary64.round (Binary64.round v * Binary64.round q) / Binary64.round Q) = y at low high
  generalize (v : ℚ) * q / Q = x at low high small nonneg
  have hy : 0 ≤ y := (mul_nonneg (by norm_num) nonneg).trans low
  have up := Binary64.round_le (show 0 ≤ 1 / 2 + y by linarith)
  have down := Binary64.le_round (show 0 ≤ 1 / 2 + y by linarith)
  have floor : ((⌊Binary64.round (1 / 2 + y)⌋.toNat : ℕ) : ℚ) = ⌊Binary64.round (1 / 2 + y)⌋ := by
    have : 0 ≤ ⌊Binary64.round (1 / 2 + y)⌋ := Int.floor_nonneg.mpr (Binary64.round_nonneg (by linarith))
    exact_mod_cast Int.toNat_of_nonneg this
  have below := Int.floor_le (Binary64.round (1 / 2 + y))
  have above := Int.lt_floor_add_one (Binary64.round (1 / 2 + y))
  rw [floor, abs_le]
  constructor <;> linarith

namespace LWE
variable {w : NativeSize} {n : ℕ} {round : FloorRound} {q : ℕ} {ρ : ℚ}

/-! ### Switching the modulus -/

theorem phase_modSwitch_near {ct : LWECiphertext n} (reduced : Reduced ct) (within : RoundsWithin round q ct.modulus ρ) (s : Fin n → ℤ) :
    Near q (ρ * (1 + ∑ i, |s i| : ℤ)) (phase s (modSwitch round q ct)) (phase s ct * q / ct.modulus) := by
  have entry : ∀ i ∈ Finset.univ, Near q (|(s i : ℚ)| * ρ) ((roundqQ round (ct.a i) q ct.modulus : ℚ) * s i)
      ((ct.a i : ℚ) * q / ct.modulus * s i) := fun i _ => (roundqQ_near (within _ (reduced.a_lt i))).intMul (s i)
  have both := (roundqQ_near (within _ reduced.b_lt)).sub (Near.sum Finset.univ entry)
  convert both using 1
  · push_cast
    rw [mul_add, mul_one, Finset.mul_sum]
    exact congrArg _ (Finset.sum_congr rfl fun i _ => mul_comm _ _)
  · simp [phase, modSwitch]
  · simp only [phase]
    push_cast
    rw [sub_mul, sub_div, Finset.sum_mul, Finset.sum_div]
    exact congrArg _ (Finset.sum_congr rfl fun i _ => by ring)

/-! ### Switching the key -/

/-- The word has room for the sums of a switching key entry. -/
def SumsFit (w : NativeSize) (n qKS : ℕ) : Prop := w = .w32 ∨ qKS ∣ 2 ^ w.bits ∨ (n + 1) * qKS ≤ 2 ^ w.bits

section Entries
variable {qKS : ℕ} (h2 : 2 ≤ qKS) (hm : ¬ modulusTooLarge w qKS) (other : qKS ≠ 2 ^ (w.maxModulusSize - 1))
include h2 hm other

theorem addProducts_fits {a s : Fin n → ℕ} (ha : ∀ l, a l < qKS) (hs : ∀ l, s l < qKS) {inner : ℕ} (start : inner < qKS)
    (fits : (n + 1) * qKS ≤ 2 ^ w.bits) :
    (addProducts w qKS a s inner : ℤ) ≡ inner + ∑ l, (a l : ℤ) * s l [ZMOD qKS] := by
  have each : ∀ l, modMulFastMu w (a l) (s l) qKS (computeMu w qKS) < qKS := fun l =>
    (modMulFastMu_lt_iff h2 hm (ha l) (hs l)).mpr fun same => absurd same other
  have sums : ∀ (rest : List (Fin n)) (inner bound : ℕ), inner < bound → bound + rest.length * qKS ≤ 2 ^ w.bits →
      ((rest.foldl (fun inner i => NativeInteger.add w inner (modMulFastMu w (a i) (s i) qKS (computeMu w qKS))) inner : ℕ) : ℤ) ≡
        inner + (rest.map fun l => (a l : ℤ) * s l).sum [ZMOD qKS] := by
    intro rest
    induction rest with
    | nil =>
      intro inner bound _ _
      simp
    | cons l rest ih =>
      intro inner bound below room
      rw [List.length_cons, Nat.succ_mul] at room
      have product := each l
      have held : NativeInteger.add w inner (modMulFastMu w (a l) (s l) qKS (computeMu w qKS)) =
          inner + modMulFastMu w (a l) (s l) qKS (computeMu w qKS) := wrap_of_lt (by omega)
      have later := ih (inner + modMulFastMu w (a l) (s l) qKS (computeMu w qKS)) (bound + qKS) (by omega) (by omega)
      rw [List.foldl_cons, held, List.map_cons, List.sum_cons, ← add_assoc]
      refine later.trans (Int.ModEq.add_right _ ?_)
      rw [Nat.cast_add]
      have residue := Int.natCast_modEq_iff.mpr (modMulFastMu_modEq h2 hm (ha l) (hs l))
      push_cast at residue
      exact residue.add_left _
  rw [Fin.sum_univ_def]
  refine sums _ _ qKS start ?_
  rw [List.length_finRange]
  rw [add_mul, one_mul] at fits
  omega

/-- An entry of a switching key encrypts its value for every kind of secret. -/
theorem switchingEntry_modEq (fits : SumsFit w n qKS) {sv a : Fin n → ℕ} (ha : ∀ i, a i < qKS) (hs : ∀ i, sv i < qKS)
    (e value : ℕ) :
    switchingEntry w qKS sv a e value < qKS ∧
      (switchingEntry w qKS sv a e value : ℤ) ≡ e + value + ∑ i, (a i : ℤ) * sv i [ZMOD qKS] := by
  have hlt := lt_of_not_tooLarge hm
  have begun : modAdd w e value qKS = (e + value) % qKS := modAdd_eq (by omega) (by omega)
  have below : (e + value) % qKS < qKS := Nat.mod_lt _ (by omega)
  have same : (((e + value) % qKS : ℕ) : ℤ) ≡ e + value [ZMOD qKS] := by
    rw [Int.natCast_mod, Nat.cast_add]
    exact Int.mod_modEq _ _
  cases w with
  | w32 =>
    have once : ∀ b i, b < qKS → modAddFast .w32 b (modMulFastMu .w32 (a i) (sv i) qKS (computeMu .w32 qKS)) qKS < qKS ∧
        ((modAddFast .w32 b (modMulFastMu .w32 (a i) (sv i) qKS (computeMu .w32 qKS)) qKS : ℕ) : ℤ) ≡
          b + (a i : ℤ) * sv i [ZMOD qKS] := by
      intro b i hb
      have product := (modMulFastMu_lt_iff h2 hm (ha i) (hs i)).mpr fun same => absurd same other
      have residue := Int.natCast_modEq_iff.mpr (modMulFastMu_modEq h2 hm (ha i) (hs i))
      push_cast at residue
      exact ⟨modAddFast_lt hb product (by omega), (modAddFast_cast hb product (by omega)).trans (residue.add_left _)⟩
    have total := Run.foldl_modEq (fun b => b < qKS) (fun b : ℕ => (b : ℤ)) (fun i => (a i : ℤ) * sv i) once (List.finRange n) below
    rw [switchingEntry.eq_def]
    dsimp only
    rw [begun, Fin.sum_univ_def]
    exact ⟨total.1, total.2.trans (same.add_right _)⟩
  | w64 =>
    have sum : (addProducts .w64 qKS a sv ((e + value) % qKS) : ℤ) ≡ ((e + value) % qKS : ℕ) + ∑ i, (a i : ℤ) * sv i [ZMOD qKS] := by
      rcases fits with narrow | whole | room
      · cases narrow
      · exact addProducts_modEq h2 hm whole ha hs _
      · exact addProducts_fits h2 hm other ha hs below room
    rw [switchingEntry.eq_def]
    dsimp only
    rw [begun, Int.natCast_mod]
    exact ⟨Nat.mod_lt _ (by omega), (Int.mod_modEq _ _).trans (sum.trans (same.add_right _))⟩

end Entries

section Generated
variable {N qKS baseKS digitCount : ℕ} {sk : LWEPrivateKey n} {skN : LWEPrivateKey N} {masks : Fin N → ℕ → ℕ → Fin n → ℕ}
variable {errors : Fin N → ℕ → ℕ → ℕ}

/-- What the two generators of a switching key get, and where its entries are right. -/
structure SwitchesKeys (w : NativeSize) (qKS baseKS digitCount : ℕ) (sk : LWEPrivateKey n) (skN : LWEPrivateKey N)
    (masks : Fin N → ℕ → ℕ → Fin n → ℕ) : Prop where
  two_le : 2 ≤ qKS
  room : ¬ modulusTooLarge w qKS
  other : qKS ≠ 2 ^ (w.maxModulusSize - 1)
  fits : SumsFit w n qKS
  cover : qKS ≤ baseKS ^ digitCount
  key : sk.Generated w
  ring : skN.Generated w
  masks_lt : ∀ i digit j l, masks i digit j l < qKS

namespace SwitchesKeys
variable (keys : SwitchesKeys w qKS baseKS digitCount sk skN masks) (errors : Fin N → ℕ → ℕ → ℕ)
include keys

theorem switchKey_bound : (∀ i, switchKey w qKS sk i < qKS) ∧ ∀ i, (switchKey w qKS sk i : ℤ) ≡ sk.signed i [ZMOD qKS] := by
  have word := lt_of_not_tooLarge keys.room
  have keyWord := lt_of_not_tooLarge keys.key.modulus_ok
  have two := keys.two_le
  exact ⟨switchKey_lt keys.key (by omega) keys.room, fun i => switchModulus_cast (keys.key.element_lt i) (by omega) (by omega)⟩

theorem reduced : (generatedKey w qKS baseKS sk skN masks errors).Reduced qKS :=
  ⟨keys.masks_lt, fun i digit j => (switchingEntry_modEq keys.two_le keys.room keys.other keys.fits (keys.masks_lt i digit j)
    keys.switchKey_bound.1 _ _).1⟩

/-- What digit `j` of an entry takes from the phase. -/
theorem keyTerm_modEq {ctQN : LWECiphertext N} (i : Fin N) {j : ℕ} (hj : j < digitCount) (small : ctQN.a i < qKS) :
    keyTerm (generatedKey w qKS baseKS sk skN masks errors) baseKS sk.signed ctQN i j ≡
      (ctQN.a i / baseKS ^ j % baseKS * baseKS ^ j : ℕ) * skN.signed i + errors i (ctQN.a i / baseKS ^ j % baseKS) j
        [ZMOD qKS] := by
  have two := keys.two_le
  have word := lt_of_not_tooLarge keys.room
  have ringWord := lt_of_not_tooLarge keys.ring.modulus_ok
  have base : 0 < baseKS := by
    by_contra none
    have cover := keys.cover
    rw [show baseKS = 0 by omega, zero_pow (by omega)] at cover
    omega
  have entry := (switchingEntry_modEq keys.two_le keys.room keys.other keys.fits
    (keys.masks_lt i (ctQN.a i / baseKS ^ j % baseKS) j) keys.switchKey_bound.1 (errors i (ctQN.a i / baseKS ^ j % baseKS) j)
    (digitValue w qKS baseKS (switchKey w qKS skN i) (ctQN.a i / baseKS ^ j % baseKS) j)).2
  have value : (digitValue w qKS baseKS (switchKey w qKS skN i) (ctQN.a i / baseKS ^ j % baseKS) j : ℤ) ≡
      (ctQN.a i / baseKS ^ j % baseKS * baseKS ^ j : ℕ) * skN.signed i [ZMOD qKS] := by
    rw [digitValue_digit (by omega) base _ small j, Int.natCast_mod, Nat.cast_mul, mul_comm]
    exact (Int.mod_modEq _ _).trans ((switchModulus_cast (keys.ring.element_lt i) (by omega) (by omega)).mul_left _)
  have masked : ∑ l, (masks i (ctQN.a i / baseKS ^ j % baseKS) j l : ℤ) * switchKey w qKS sk l ≡
      ∑ l, (masks i (ctQN.a i / baseKS ^ j % baseKS) j l : ℤ) * sk.signed l [ZMOD qKS] :=
    Int.ModEq.sum fun l _ => (keys.switchKey_bound.2 l).mul_left _
  have cleared := entry.sub masked.symm
  rw [add_sub_cancel_right, add_comm] at cleared
  exact cleared.trans (value.add_right _)

theorem phase_generated {ctQN : LWECiphertext N} (reduced : Reduced ctQN) (modulus : ctQN.modulus = qKS) :
    phase sk.signed (keySwitch w qKS (generatedKey w qKS baseKS sk skN masks errors) baseKS digitCount ctQN) ≡
      phase skN.signed ctQN - selectedErrors baseKS digitCount errors ctQN.a [ZMOD qKS] := by
  have two := keys.two_le
  have word := lt_of_not_tooLarge keys.room
  have small : ∀ i, ctQN.a i < qKS := fun i => modulus ▸ reduced.a_lt i
  have entry : ∀ i, ((List.range digitCount).map fun j =>
      keyTerm (generatedKey w qKS baseKS sk skN masks errors) baseKS sk.signed ctQN i j).sum ≡
        ctQN.a i * skN.signed i + ∑ j ∈ Finset.range digitCount, (errors i (ctQN.a i / baseKS ^ j % baseKS) j : ℤ) [ZMOD qKS] := by
    intro i
    have terms := Int.ModEq.sum fun j (member : j ∈ Finset.range digitCount) =>
      keys.keyTerm_modEq errors i (Finset.mem_range.mp member) (small i)
    have recomposed : ∑ j ∈ Finset.range digitCount, ctQN.a i / baseKS ^ j % baseKS * baseKS ^ j = ctQN.a i := by
      rw [Finset.sum_range, Radix.sum_digits, Nat.mod_eq_of_lt ((small i).trans_le keys.cover)]
    rw [Finset.sum_add_distrib, ← Finset.sum_mul, ← Nat.cast_sum, recomposed] at terms
    exact terms
  have total := (phase_keySwitch (w := w) sk.signed (show 0 < qKS by omega) (by omega) (keys.reduced errors) baseKS digitCount
    (modulus ▸ reduced.b_lt)).2.2
  refine total.trans ?_
  rw [← Fin.sum_univ_def]
  have sums := Int.ModEq.sum fun i (_ : i ∈ Finset.univ) => entry i
  rw [Finset.sum_add_distrib] at sums
  refine (sums.sub_left (ctQN.b : ℤ)).trans ?_
  rw [phase, selectedErrors, sub_sub]

end SwitchesKeys

/-- The errors that the digits select, as the small numbers that were drawn. -/
theorem selectedErrors_near (baseKS digitCount : ℕ) {E : ℚ} (small : ∀ i digit j, |(centered qKS (errors i digit j) : ℚ)| ≤ E) (c : Fin N → ℕ) :
    Near qKS (N * (digitCount * E)) (selectedErrors baseKS digitCount errors c) 0 := by
  have each : ∀ i ∈ Finset.univ, Near qKS (digitCount * E)
      (∑ j ∈ Finset.range digitCount, (errors i (c i / baseKS ^ j % baseKS) j : ℚ)) 0 := by
    intro i _
    have digit : ∀ j ∈ Finset.range digitCount, Near qKS E (errors i (c i / baseKS ^ j % baseKS) j : ℚ) 0 := by
      intro j _
      have residue := near_of_modEq (centered_modEq qKS (errors i (c i / baseKS ^ j % baseKS) j)).symm
      have drawn : Near qKS E (centered qKS (errors i (c i / baseKS ^ j % baseKS) j) : ℤ) 0 := by
        refine near_of_abs ?_
        rw [sub_zero]
        exact small i (c i / baseKS ^ j % baseKS) j
      have close := residue.trans drawn
      rwa [zero_add, Int.cast_natCast] at close
    have sum := Near.sum _ digit
    simpa using sum
  have sum := Near.sum _ each
  convert sum using 1
  · simp
  · rw [selectedErrors]
    push_cast
    rfl
  · simp

/-- The rounding to the intermediate modulus and the errors of the key, scaled, and the last rounding. -/
def switchBound (q qKS digitCount : ℕ) (sk : LWEPrivateKey n) (skN : LWEPrivateKey N) (ρ ρ' E : ℚ) : ℚ :=
  (ρ * (1 + ∑ i, |skN.signed i| : ℤ) + N * (digitCount * E)) * (q / qKS) + ρ' * (1 + ∑ i, |sk.signed i| : ℤ)

theorem switched_near {Q : ℕ} {ρ' E : ℚ} (keys : SwitchesKeys w qKS baseKS digitCount sk skN masks)
    (within : RoundsWithin round qKS Q ρ) (within' : RoundsWithin round q qKS ρ')
    (small : ∀ i digit j, |(centered qKS (errors i digit j) : ℚ)| ≤ E) {ctExt : LWECiphertext N} (reduced : Reduced ctExt)
    (modulus : ctExt.modulus = Q) :
    Near q (switchBound q qKS digitCount sk skN ρ ρ' E)
      (phase sk.signed (modSwitch round q (keySwitch w qKS (generatedKey w qKS baseKS sk skN masks errors) baseKS digitCount
        (modSwitch round qKS ctExt))))
      (phase skN.signed ctExt * q / Q) := by
  have two := keys.two_le
  have word := lt_of_not_tooLarge keys.room
  have pos : (0 : ℚ) < qKS := by exact_mod_cast (show 0 < qKS by omega)
  have first := phase_modSwitch_near reduced (modulus ▸ within) skN.signed
  have middle : Reduced (modSwitch round qKS ctExt) := modSwitch_reduced round (by omega) ctExt
  obtain ⟨reducedKS, modulusKS, -⟩ := phase_keySwitch (w := w) sk.signed (show 0 < qKS by omega) (by omega)
    (keys.reduced errors) baseKS digitCount middle.b_lt
  have second := phase_modSwitch_near reducedKS (modulusKS ▸ within') sk.signed
  rw [modulusKS] at second
  have exchanged := near_of_modEq (keys.phase_generated errors middle rfl)
  rw [Int.cast_sub] at exchanged
  have drift := first.sub (selectedErrors_near baseKS digitCount small (modSwitch round qKS ctExt).a)
  have scaled := (exchanged.trans drift).scale (show (0 : ℚ) ≤ q / qKS by positivity)
  rw [mul_div_cancel₀ (q : ℚ) pos.ne'] at scaled
  rw [mul_div_assoc] at second
  have all := second.trans scaled
  convert all using 1
  · rw [switchBound]
    ring
  · rw [modulus]
    field_simp
    ring

end Generated

/-- A prime modulus, which does not divide the word, with signed secrets of lengths three and two. -/
theorem prime_switchesKeys : SwitchesKeys .w64 257 8 3 (⟨![1, 256, 0], 257⟩ : LWEPrivateKey 3) (⟨![16, 1], 17⟩ : LWEPrivateKey 2)
    fun i digit j l => (i + 8 * digit + 64 * j + l) % 257 where
  two_le := by decide
  room := by decide
  other := by decide
  fits := .inr (.inr (by decide))
  cover := by decide
  key := ⟨fun i => by fin_cases i <;> decide, by decide⟩
  ring := ⟨fun i => by fin_cases i <;> decide, by decide⟩
  masks_lt := fun _ _ _ _ => Nat.mod_lt _ (by decide)

end LWE
end MultiKeyFHE
