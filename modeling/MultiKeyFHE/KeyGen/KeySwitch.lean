import MultiKeyFHE.KeyGen.MNTRU
import MultiKeyFHE.Scheme.FreshMNTRU
import MultiKeyFHE.Library.Radix

/-!
# Key switching of MNTRU ciphertexts

`KeySwitchGen` with `KeySwitch` and `KeySwitchGen2` with `KeySwitch2`, for rows of noise that may be any. The digits
of a ciphertext recompose it, the gadget terms are the powers of the base times the switched ring key, and the first
column of `F` cancels the rows of `F_inv` but for the first entry.
-/

namespace MultiKeyFHE
open NativeInteger NativeVector Draws Sampler Radix

namespace MNTRU

section Model
variable (w : NativeSize) {k n N digitCount : ℕ} [NeZero n] (qKS QN baseKS : ℕ)

/-- `ctQN_hat[u]`: the digits of every entry, one after the other. -/
def digitVector (digitCount : ℕ) (c : Fin N → ℕ) (l : Fin (N * digitCount)) : ℕ :=
  c l.divNat / baseKS ^ l.modNat.val % baseKS

/-- `KeySwitchGen` with the rows of noise `E`. -/
def switchingKey (sk : MNTRUPrivateKey k n) (skN : Fin k → Fin N → ℕ) (E : Fin k → Fin (N * digitCount) → Fin n → ℕ) :
    Fin k → Fin (N * digitCount) → Fin n → ℕ :=
  fun u i => keyRow w qKS QN baseKS (sk.F_inv u) (skN u) (E u i) i

def getElements_coli {rows : ℕ} (m_key : Fin k → Fin rows → Fin n → ℕ) (index : Fin n) : Fin k → Fin rows → ℕ :=
  fun i j => m_key i j index

def keySwitch (KSK : Fin k → Fin (N * digitCount) → Fin n → ℕ) (ctQN : MNTRUCiphertext k N) : MNTRUCiphertext k n :=
  { elements := fun u i => modMulSum w qKS (digitVector baseKS digitCount (ctQN.elements u)) (getElements_coli KSK i u)
    modulus := qKS }

variable {qKS}

/-- `KeySwitchGen2` with the rows of noise `E`: the entries `[u][digit][l]` are multiples of the rows. -/
def switchingKey2 (pos : 0 < qKS) (sk : MNTRUPrivateKey k n) (skN : Fin k → Fin N → ℕ)
    (E : Fin k → Fin (N * digitCount) → Fin n → ℕ) : SwitchingKey2 k n qKS where
  elements u digit l i :=
    if h : l < N * digitCount then modMulFast (switchingKey w qKS QN baseKS sk skN E u ⟨l, h⟩ i) digit qKS else 0
  elements_lt u digit l i := by
    split
    · exact Nat.mod_lt _ pos
    · exact pos

end Model

section Program
variable {w : NativeSize} {plat : Platform} {k n N qKS QN baseKS : ℕ} [NeZero n]
variable {sk : MNTRUPrivateKey k n} {skN : Fin k → Fin N → ℕ}

/-- The generated keys are those of the rows that the fill constructor copies. -/
theorem keySwitchGen_row (stream : ℕ → NoiseVector n qKS) (u : Fin k) (i : Fin (N * plat.digitCount qKS baseKS)) :
    (value (keySwitchGen w plat QN baseKS sk skN) stream u i).row =
      switchingKey w qKS QN baseKS sk skN (fun u _ l => stream u l) u i := by
  rw [keySwitchGen, forEach_value fun _ => partyRows_asks _ _ _, mul_one]
  rfl

theorem keySwitchGen2_multiple (pos : 0 < qKS) (stream : ℕ → NoiseVector n qKS) (u : Fin k)
    (i : Fin (N * plat.digitCount qKS baseKS)) (digit : ℕ) :
    (value (keySwitchGen2 w plat QN baseKS sk skN) stream u i).multiple digit =
      (switchingKey2 w QN baseKS pos sk skN fun u (_ : Fin (N * plat.digitCount qKS baseKS)) l => stream u l).elements u
        digit i := by
  funext l
  rw [keySwitchGen2, forEach_value fun _ => (partyRows_asks _ _ _).map _, mul_one, switchingKey2]
  simp only [i.isLt, dite_true]
  rfl

end Program

/-! ### Digits and gadget terms -/

section Digits
variable {w : NativeSize} {N qKS baseKS digitCount : ℕ}

theorem digitVector_lt {c : Fin N → ℕ} (pos : 0 < baseKS) (l : Fin (N * digitCount)) :
    digitVector baseKS digitCount c l < baseKS := Nat.mod_lt _ pos

theorem digitVector_le (c : Fin N → ℕ) (l : Fin (N * digitCount)) : digitVector baseKS digitCount c l ≤ c l.divNat :=
  (Nat.mod_le _ _).trans (Nat.div_le_self _ _)

theorem digitVector_pair (c : Fin N → ℕ) (x : Fin N) (j : Fin digitCount) :
    digitVector baseKS digitCount c (finProdFinEquiv (x, j)) = c x / baseKS ^ j.val % baseKS := by
  have split := finProdFinEquiv.symm_apply_apply (x, j)
  rw [finProdFinEquiv_symm_apply, Prod.mk.injEq] at split
  rw [digitVector, split.1, split.2]

theorem base_pos (pos : 0 < qKS) (cover : qKS ≤ baseKS ^ digitCount) (j : Fin digitCount) : 0 < baseKS := by
  by_contra zero
  rw [show baseKS = 0 by omega, zero_pow (by have := j.isLt; omega)] at cover
  omega

theorem sum_rows (f : Fin (N * digitCount) → ℤ) : ∑ l, f l = ∑ x : Fin N, ∑ j : Fin digitCount, f (finProdFinEquiv (x, j)) := by
  rw [← Fintype.sum_prod_type', ← finProdFinEquiv.sum_comp f]

theorem firstCoef_eq (word : 2 * qKS ≤ 2 ^ w.bits) {s : Fin N → ℕ} (small : ∀ i, s i < qKS) (i : Fin N) :
    firstCoef w qKS s i = s i := by
  unfold firstCoef
  split
  · rfl
  · rw [modAdd_eq (Nat.zero_lt_of_lt (small i)) word, zero_add, Nat.mod_eq_of_lt (small i)]

/-- No power wraps, since `baseKS ^ (digitCount - 1)` is not above the modulus. -/
theorem gadgetTerm_pair (square : qKS ^ 2 < 2 ^ w.bits) (word : 2 * qKS ≤ 2 ^ w.bits) (top : baseKS ^ (digitCount - 1) ≤ qKS)
    (pos : 0 < baseKS) {s : Fin N → ℕ} (small : ∀ i, s i < qKS) (x : Fin N) (j : Fin digitCount) :
    gadgetTerm w qKS baseKS s (finProdFinEquiv (x, j)) = s x * baseKS ^ j.val := by
  have split := finProdFinEquiv.symm_apply_apply (x, j)
  rw [finProdFinEquiv_symm_apply, Prod.mk.injEq] at split
  rw [gadgetTerm, split.1, split.2, firstCoef_eq word small]
  refine mulIterate_eq pos _ ?_
  have power : baseKS ^ j.val ≤ qKS := (Nat.pow_le_pow_right pos (by omega)).trans top
  calc s x * baseKS ^ j.val ≤ qKS * qKS := Nat.mul_le_mul (small x).le power
    _ = qKS ^ 2 := (pow_two qKS).symm
    _ < _ := square

end Digits

/-! ### The phase of a switched ciphertext -/

section Phase
variable {w : NativeSize} {k n N qKS QN baseKS digitCount : ℕ} [NeZero n] {F F_inv : Fin k → Fin n → Fin n → ℕ}

/-- The first column of `F` picks the first entry out of a combination of the rows of `F_inv`. -/
theorem Invertible.column (invertible : Invertible qKS F F_inv) (u : Fin k) (g : Fin n → ℤ) :
    (∑ i, (∑ l, g l * F_inv u l i) * F u i 0) ≡ g 0 [ZMOD qKS] := by
  have exchanged : (∑ i, (∑ l, g l * (F_inv u l i : ℤ)) * F u i 0) = ∑ l, g l * ∑ i, (F_inv u l i : ℤ) * F u i 0 := by
    simp only [Finset.sum_mul, Finset.mul_sum, mul_assoc]
    exact Finset.sum_comm
  rw [exchanged]
  refine (Int.ModEq.sum fun l _ => (invertible.generated.inverse u l).mul_left (g l)).trans ?_
  simp [Int.ModEq.refl]

variable {skN : Fin k → Fin N → ℕ} {E : Fin k → Fin (N * digitCount) → Fin n → ℕ}

/-- What a row of the key holds under the first column of `F`. -/
theorem row_phase (pos : 0 < qKS) (word : 2 * qKS ≤ 2 ^ w.bits) (invertible : Invertible qKS F F_inv) (u : Fin k)
    (l : Fin (N * digitCount)) (fits : RowFits qKS (gadgetRow w qKS QN baseKS (skN u) (E u l) l) (F_inv u)) :
    (∑ i, (switchingKey w qKS QN baseKS (ofMatrices F F_inv qKS) skN E u l i : ℤ) * F u i 0) ≡
      E u l 0 + gadgetTerm w qKS baseKS (fun i => switchModulus w QN qKS (skN u i)) l [ZMOD qKS] := by
  obtain ⟨term, hterm⟩ : ∃ term : ℕ, term = gadgetTerm w qKS baseKS (fun i => switchModulus w QN qKS (skN u i)) l := ⟨_, rfl⟩
  have rows : ∀ i, (switchingKey w qKS QN baseKS (ofMatrices F F_inv qKS) skN E u l i : ℤ) ≡
      ∑ m, ((E u l m : ℤ) + if m = 0 then (term : ℤ) else 0) * F_inv u m i [ZMOD qKS] := by
    intro i
    refine (keyRow_modEq pos word fits i).trans ?_
    rw [← hterm]
    simp [add_mul, Finset.sum_add_distrib, Int.ModEq.refl]
  refine (Int.ModEq.sum fun i _ => (rows i).mul_right _).trans ((invertible.column u _).trans ?_)
  rw [if_pos rfl, hterm]

theorem keySwitch2_rows (pos : 0 < qKS) (word : 2 * qKS ≤ 2 ^ w.bits) (sk : MNTRUPrivateKey k n) (ctQN : MNTRUCiphertext k N)
    (u : Fin k) (i : Fin n) :
    ((keySwitch2 w (switchingKey2 w QN baseKS pos sk skN E) baseKS digitCount ctQN).elements u i : ℤ) ≡
      ∑ l, (digitVector baseKS digitCount (ctQN.elements u) l : ℤ) * switchingKey w qKS QN baseKS sk skN E u l i
        [ZMOD qKS] := by
  have zero : ∀ u l i, (switchingKey2 w QN baseKS pos sk skN E).elements u 0 l i = 0 := by
    intro u l i
    simp [switchingKey2, modMulFast]
  refine (keySwitch2_modEq pos word zero baseKS digitCount ctQN u i).trans ?_
  rw [sum_rows]
  refine Int.ModEq.sum fun x _ => Int.ModEq.sum fun j _ => ?_
  have inside : x.val * digitCount + j.val < N * digitCount := by
    calc x.val * digitCount + j.val < (x.val + 1) * digitCount := by rw [add_mul, one_mul]; omega
      _ ≤ N * digitCount := Nat.mul_le_mul_right _ x.isLt
  have place : finProdFinEquiv (x, j) = ⟨x.val * digitCount + j.val, inside⟩ := Fin.ext (by simp [mul_comm, add_comm])
  rw [digitVector_pair, place]
  simp only [switchingKey2, modMulFast, dif_pos inside, Int.natCast_mod, Nat.cast_mul]
  rw [mul_comm]
  exact Int.mod_modEq _ _

/-- The digits of an entry, each times its gadget term. -/
theorem sum_gadgetTerm (square : qKS ^ 2 < 2 ^ w.bits) (word : 2 * qKS ≤ 2 ^ w.bits) (cover : qKS ≤ baseKS ^ digitCount)
    (top : baseKS ^ (digitCount - 1) ≤ qKS) {s c : Fin N → ℕ} (hs : ∀ x, s x < qKS) (hc : ∀ x, c x < qKS) :
    (∑ l, (digitVector baseKS digitCount c l : ℤ) * gadgetTerm w qKS baseKS s l) = ∑ x, (c x : ℤ) * s x := by
  rw [sum_rows]
  refine Finset.sum_congr rfl fun x _ => ?_
  have term : ∀ j : Fin digitCount, (digitVector baseKS digitCount c (finProdFinEquiv (x, j)) : ℤ) *
      gadgetTerm w qKS baseKS s (finProdFinEquiv (x, j)) = (c x / baseKS ^ j.val % baseKS * baseKS ^ j.val : ℕ) * s x := by
    intro j
    rw [digitVector_pair, gadgetTerm_pair square word top (base_pos (Nat.zero_lt_of_lt (hc x)) cover j) hs]
    push_cast
    ring
  rw [Finset.sum_congr rfl fun j _ => term j, ← Finset.sum_mul, ← Nat.cast_sum, sum_digits,
    Nat.mod_eq_of_lt ((hc x).trans_le cover)]

/-- `KeySwitch2` with the key of `KeySwitchGen2` keeps the phase, up to the noise that the digits pick. -/
theorem keySwitch2_phase (pos : 0 < qKS) (invertible : Invertible qKS F F_inv) (square : qKS ^ 2 < 2 ^ w.bits)
    (cover : qKS ≤ baseKS ^ digitCount) (top : baseKS ^ (digitCount - 1) ≤ qKS) (ring : ∀ u x, skN u x < QN)
    (ctQN : MNTRUCiphertext k N) (small : ∀ u x, ctQN.elements u x < qKS)
    (fits : ∀ u l, digitVector baseKS digitCount (ctQN.elements u) l ≠ 0 →
      RowFits qKS (gadgetRow w qKS QN baseKS (skN u) (E u l) l) (F_inv u)) :
    let ct := keySwitch2 w (switchingKey2 w QN baseKS pos (ofMatrices F F_inv qKS) skN E) baseKS digitCount ctQN
    (∑ u, ∑ i, (ct.elements u i : ℤ) * F u i 0) ≡
        (∑ u, ∑ x, (ctQN.elements u x : ℤ) * switchModulus w QN qKS (skN u x)) +
          ∑ u, ∑ l, (digitVector baseKS digitCount (ctQN.elements u) l : ℤ) * E u l 0 [ZMOD qKS] ∧
      ∀ u (l : Fin (N * digitCount)), digitVector baseKS digitCount (ctQN.elements u) l < baseKS := by
  intro ct
  have word : 2 * qKS ≤ 2 ^ w.bits := by
    rcases Nat.lt_or_ge qKS 2 with one | large
    · have : 2 ^ 1 ≤ 2 ^ w.bits := Nat.pow_le_pow_right (by norm_num) (by cases w <;> decide)
      omega
    · calc 2 * qKS ≤ qKS * qKS := Nat.mul_le_mul_right _ large
        _ = qKS ^ 2 := (pow_two qKS).symm
        _ ≤ _ := square.le
  have switched : ∀ u x, switchModulus w QN qKS (skN u x) < qKS := fun u x => switchModulus_lt (ring u x) pos (by omega)
  refine ⟨?_, fun u l => digitVector_lt (base_pos pos cover l.modNat) l⟩
  have party : ∀ u, (∑ i, (ct.elements u i : ℤ) * F u i 0) ≡
      (∑ x, (ctQN.elements u x : ℤ) * switchModulus w QN qKS (skN u x)) +
        ∑ l, (digitVector baseKS digitCount (ctQN.elements u) l : ℤ) * E u l 0 [ZMOD qKS] := by
    intro u
    have exchanged : (∑ i, (∑ l, (digitVector baseKS digitCount (ctQN.elements u) l : ℤ) *
        switchingKey w qKS QN baseKS (ofMatrices F F_inv qKS) skN E u l i) * F u i 0) =
        ∑ l, (digitVector baseKS digitCount (ctQN.elements u) l : ℤ) *
          ∑ i, (switchingKey w qKS QN baseKS (ofMatrices F F_inv qKS) skN E u l i : ℤ) * F u i 0 := by
      simp only [Finset.sum_mul, Finset.mul_sum, mul_assoc]
      exact Finset.sum_comm
    refine (Int.ModEq.sum fun i _ => (keySwitch2_rows pos word _ ctQN u i).mul_right _).trans ?_
    rw [exchanged]
    have row : ∀ l, (digitVector baseKS digitCount (ctQN.elements u) l : ℤ) *
        (∑ i, (switchingKey w qKS QN baseKS (ofMatrices F F_inv qKS) skN E u l i : ℤ) * F u i 0) ≡
        (digitVector baseKS digitCount (ctQN.elements u) l : ℤ) *
          (E u l 0 + gadgetTerm w qKS baseKS (fun i => switchModulus w QN qKS (skN u i)) l) [ZMOD qKS] := by
      intro l
      by_cases skipped : digitVector baseKS digitCount (ctQN.elements u) l = 0
      · rw [skipped, Nat.cast_zero, zero_mul, zero_mul]
      · exact (row_phase pos word invertible u l (fits u l skipped)).mul_left _
    refine (Int.ModEq.sum fun l _ => row l).trans ?_
    simp only [mul_add, Finset.sum_add_distrib]
    rw [sum_gadgetTerm square word cover top (switched u) (small u), add_comm]
  rw [← Finset.sum_add_distrib]
  exact Int.ModEq.sum fun u _ => party u

end Phase

/-- The key one and the ring secret minus one, modulo `2 ^ 32 - 5`: `mod_q` stores the row as a word above the modulus, and
the ciphertext one, with no noise anywhere, gets the phase 19. -/
theorem minus_one_lost :
    Invertible 4294967291 (fun (_ : Fin 1) (_ _ : Fin 1) => 1) (fun _ _ _ => 1) ∧ 4294967291 ^ 2 < 2 ^ NativeSize.w64.bits ∧
    4294967291 ≤ 65536 ^ 2 ∧ 65536 ^ (2 - 1) ≤ 4294967291 ∧
    let ctQN : MNTRUCiphertext 1 1 := { elements := fun _ _ => 1, modulus := 4294967291 }
    let skN : Fin 1 → Fin 1 → ℕ := fun _ _ => 4294967290
    let ct := keySwitch2 .w64 (switchingKey2 .w64 4294967291 65536 (show 0 < 4294967291 by decide)
      (ofMatrices (fun _ _ _ => 1) (fun (_ : Fin 1) (_ _ : Fin 1) => 1) 4294967291) skN fun _ (_ : Fin (1 * 2)) _ => 0) 65536 2 ctQN
    ct.elements 0 0 = 19 ∧
      ¬ (∑ u, ∑ i, (ct.elements u i : ℤ) * 1) ≡
        (∑ u, ∑ x, (ctQN.elements u x : ℤ) * switchModulus .w64 4294967291 4294967291 (skN u x)) +
          ∑ u, ∑ l, (digitVector 65536 2 (ctQN.elements u) l : ℤ) * 0 [ZMOD 4294967291] := by
  refine ⟨⟨by decide, by decide, by decide⟩, by decide, by decide, by decide, ?_⟩
  intro ctQN skN ct
  have value : ct.elements 0 0 = 19 := by decide +kernel
  refine ⟨value, ?_⟩
  decide +kernel

/-- Two parties with two by two matrices, three digits and the noise one, modulo 257. -/
theorem sheared_switches :
    let F : Fin 2 → Fin 2 → Fin 2 → ℕ := fun _ => ![![1, 1], ![0, 1]]
    let F_inv : Fin 2 → Fin 2 → Fin 2 → ℕ := fun _ => ![![1, 256], ![0, 1]]
    let ctQN : MNTRUCiphertext 2 1 := { elements := ![![100], ![200]], modulus := 257 }
    let ct := keySwitch2 .w32 (switchingKey2 .w32 17 8 (show 0 < 257 by decide) (ofMatrices F F_inv 257)
      (fun _ (_ : Fin 1) => 16) fun _ (_ : Fin (1 * 3)) _ => 1) 8 3 ctQN
    (∑ u, ∑ i, (ct.elements u i : ℤ) * F u i 0) ≡
        (∑ u, ∑ x, (ctQN.elements u x : ℤ) * switchModulus .w32 17 257 16) +
          ∑ u, ∑ l, (digitVector 8 3 (ctQN.elements u) l : ℤ) * (1 : ℕ) [ZMOD 257] := by
  intro F F_inv ctQN ct
  have cover : 257 ≤ 8 ^ 3 := by decide
  have top : 8 ^ (3 - 1) ≤ 257 := by decide
  have ring : ∀ (_ : Fin 2) (_ : Fin 1), 16 < 17 := by decide
  exact (keySwitch2_phase (w := .w32) (show 0 < 257 by decide) (⟨by decide, by decide, by decide⟩ : Invertible 257 F F_inv)
    (by decide) cover top ring ctQN (by decide) fun u l _ => rowFits_of_room (by decide) (by decide) (by decide)
      (fun l => gadgetRow_lt (by decide) (by decide) (by decide) l) (by decide)).1

/-! ### The two versions -/

section Versions
variable {w : NativeSize} {k n N qKS QN baseKS digitCount : ℕ} [NeZero n] {sk : MNTRUPrivateKey k n}
variable {skN : Fin k → Fin N → ℕ} {E : Fin k → Fin (N * digitCount) → Fin n → ℕ}

/-- The Barrett product of a digit and a row is right where the row is reduced, and for every word in the row where
the digit is small. -/
theorem digit_product (room : ¬ modulusTooLarge w qKS) {digit : ℕ} (below : digit < qKS) (u : Fin k)
    (l : Fin (N * digitCount)) (i : Fin n)
    (fits : digit ≤ 2 ^ (qKS.size - 2) ∨
      FitsInt32 qKS (long (exactProduct qKS (gadgetRow w qKS QN baseKS (skN u) (E u l) l) (sk.F_inv u) i))) :
    modMulFastMu w digit (switchingKey w qKS QN baseKS sk skN E u l i) qKS (computeMu w qKS) ≡
      digit * switchingKey w qKS QN baseKS sk skN E u l i [MOD qKS] := by
  have word := lt_of_not_tooLarge room
  rcases Nat.lt_or_ge qKS 2 with one | large
  · rw [show qKS = 1 by omega]
    exact Nat.modEq_one
  · rcases fits with small | fits
    · exact modMulFastMu_modEq_word large room small (modQ_lt qKS _)
    · refine modMulFastMu_modEq large room below ?_
      have value := modQ_eq (w := w) (by omega) (by omega) fits
      rw [← rowProduct_eq_long] at value
      have reduced := Int.emod_lt_of_pos
        (rowProduct qKS (gadgetRow w qKS QN baseKS (skN u) (E u l) l) (sk.F_inv u) i) (show (0 : ℤ) < qKS by omega)
      rw [← value] at reduced
      exact_mod_cast reduced

/-- `KeySwitch` and `KeySwitch2` return the same vectors for keys from the same noise. -/
theorem keySwitch_eq_keySwitch2 (pos : 0 < qKS) (room : ¬ modulusTooLarge w qKS) (sk : MNTRUPrivateKey k n)
    (skN : Fin k → Fin N → ℕ) (E : Fin k → Fin (N * digitCount) → Fin n → ℕ) (ctQN : MNTRUCiphertext k N)
    (small : ∀ u x, ctQN.elements u x < qKS)
    (fits : ∀ u l, digitVector baseKS digitCount (ctQN.elements u) l ≤ 2 ^ (qKS.size - 2) ∨ ∀ i,
      FitsInt32 qKS (long (exactProduct qKS (gadgetRow w qKS QN baseKS (skN u) (E u l) l) (sk.F_inv u) i))) :
    keySwitch w qKS baseKS (switchingKey w qKS QN baseKS sk skN E) ctQN =
      keySwitch2 w (switchingKey2 w QN baseKS pos sk skN E) baseKS digitCount ctQN := by
  have word := lt_of_not_tooLarge room
  refine MNTRUCiphertext.ext (funext fun u => funext fun i => ?_) rfl rfl
  obtain ⟨below, first⟩ := modMulSum_modEq_of_products pos (by omega) fun l =>
    digit_product room ((digitVector_le (ctQN.elements u) l).trans_lt (small u _)) u l i ((fits u l).imp_right fun all => all i)
  have second : ((keySwitch2 w (switchingKey2 w QN baseKS pos sk skN E) baseKS digitCount ctQN).elements u i : ℤ) ≡ _
      [ZMOD qKS] := keySwitch2_rows pos (by omega) sk ctQN u i
  have below' := (keySwitch2_reduced (w := w) pos (by omega) (switchingKey2 w QN baseKS pos sk skN E) baseKS digitCount ctQN).lt u i
  exact Nat.ModEq.eq_of_lt_of_lt (Int.natCast_modEq_iff.mp (first.trans second.symm)) below below'

end Versions

/-- With the digit `2 ^ 31` the Barrett product cuts the row that `mod_q` stored as a word above the modulus. -/
theorem versions_differ :
    let ctQN : MNTRUCiphertext 1 1 := { elements := fun _ _ => 2147483648, modulus := 4294967291 }
    let sk : MNTRUPrivateKey 1 1 := ofMatrices (fun _ _ _ => 1) (fun _ _ _ => 1) 4294967291
    let skN : Fin 1 → Fin 1 → ℕ := fun _ _ => 4294967290
    let E : Fin 1 → Fin (1 * 1) → Fin 1 → ℕ := fun _ _ _ => 0
    keySwitch .w64 4294967291 4294967295 (switchingKey .w64 4294967291 4294967291 4294967295 sk skN E) ctQN ≠
      keySwitch2 .w64 (switchingKey2 .w64 4294967291 4294967295 (show 0 < 4294967291 by decide) sk skN E) 4294967295 1
        ctQN := by
  intro ctQN sk skN E same
  have entry := congrArg (fun ct : MNTRUCiphertext 1 1 => ct.elements 0 0) same
  revert entry
  decide +kernel

theorem sheared_versions_agree :
    let sk : MNTRUPrivateKey 2 2 := ofMatrices (fun _ => ![![1, 1], ![0, 1]]) (fun _ => ![![1, 256], ![0, 1]]) 257
    let ctQN : MNTRUCiphertext 2 1 := { elements := ![![100], ![200]], modulus := 257 }
    let skN : Fin 2 → Fin 1 → ℕ := fun _ _ => 16
    let E : Fin 2 → Fin (1 * 3) → Fin 2 → ℕ := fun _ _ _ => 1
    keySwitch .w32 257 8 (switchingKey .w32 257 17 8 sk skN E) ctQN =
      keySwitch2 .w32 (switchingKey2 .w32 17 8 (show 0 < 257 by decide) sk skN E) 8 3 ctQN := by
  intro sk ctQN skN E
  exact keySwitch_eq_keySwitch2 (by decide) (by decide) sk skN E ctQN (by decide) fun u l =>
    .inr fun i => fitsInt32_of_le (by decide) (by decide) _

end MNTRU
end MultiKeyFHE
