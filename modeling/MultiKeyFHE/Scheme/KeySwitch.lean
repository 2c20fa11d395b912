import MultiKeyFHE.Scheme.MKLWE
import MultiKeyFHE.Library.Radix

/-!
# Key switching of LWE ciphertexts

`KeySwitchGen` with `KeySwitch`. The 32-bit build reduces after each product of an entry of the key; the other one
sums in a word and reduces at the end, so the carries of the sum are lost.
-/

namespace MultiKeyFHE
open NativeInteger NativeVector

namespace NativeVector
variable {w : NativeSize} {n : ℕ}

/-- Reducing every sum to the word is reducing the last one. -/
theorem addProducts_wrap {mod : ℕ} (h2 : 2 ≤ mod) (hm : mod ≤ 2 ^ w.bits) {a s : Fin n → ℕ}
    (small : ∀ i, a i * s i < mod) {inner : ℕ} (word : inner < 2 ^ w.bits) :
    addProducts w mod a s inner = wrap w (inner + ∑ i, a i * s i) := by
  rw [addProducts, Fin.sum_univ_def]
  induction List.finRange n generalizing inner with
  | nil => simp [wrap_of_lt word]
  | cons x rest ih =>
    have next : NativeInteger.add w inner (a x * s x) < 2 ^ w.bits := Nat.mod_lt _ (by positivity)
    rw [List.foldl_cons, modMulFastMu_of_lt h2 (small x) hm, ih next, List.map_cons, List.sum_cons,
      NativeInteger.add, wrap, wrap, wrap, Nat.mod_add_mod, add_assoc]

end NativeVector

namespace LWE
variable {w : NativeSize} {n : ℕ}

/-- How often the sum of a switching key entry passes the end of the word, from what the loop starts with. -/
def lostCarries (w : NativeSize) (sv a : Fin n → ℕ) (start : ℕ) : ℕ :=
  match w with
  | .w32 => 0
  | .w64 => (start + ∑ i, a i * sv i) / 2 ^ NativeSize.w64.bits

/-- What the loop starts with. -/
def entryStart (qKS e value : ℕ) : ℕ := (e + value) % qKS

theorem product_lt {qKS a s : ℕ} (small : a < qKS) (bit : s = 0 ∨ s = 1) : a * s < qKS := by
  rcases bit with zero | one
  · rw [zero, mul_zero]
    omega
  · rwa [one, mul_one]

theorem reducedSum {qKS : ℕ} (h2 : 2 ≤ qKS) (word : 2 * qKS ≤ 2 ^ w.bits) {sv a : Fin n → ℕ}
    (small : ∀ i, a i * sv i < qKS) {start : ℕ} (reduced : start < qKS) :
    (List.finRange n).foldl (fun b i => modAddFast w b (modMulFastMu w (a i) (sv i) qKS (computeMu w qKS)) qKS) start =
      (start + ∑ i, a i * sv i) % qKS := by
  rw [Fin.sum_univ_def]
  induction List.finRange n generalizing start with
  | nil => simp [Nat.mod_eq_of_lt reduced]
  | cons x rest ih =>
    have next : (start + a x * sv x) % qKS < qKS := Nat.mod_lt _ (by omega)
    rw [List.foldl_cons, modMulFastMu_of_lt h2 (small x) (by omega), modAddFast_eq reduced (small x) word, ih next,
      List.map_cons, List.sum_cons, Nat.mod_add_mod, add_assoc]

/-- The entry is the whole sum but for the carries. -/
theorem switchingEntry_spec {qKS : ℕ} (h2 : 2 ≤ qKS) (word : 2 * qKS ≤ 2 ^ w.bits) {sv a : Fin n → ℕ}
    (small : ∀ i, a i < qKS) (bit : ∀ i, sv i = 0 ∨ sv i = 1) (e value : ℕ) :
    switchingEntry w qKS sv a e value < qKS ∧
      (switchingEntry w qKS sv a e value : ℤ) + 2 ^ w.bits * lostCarries w sv a (entryStart qKS e value) ≡
        e + value + ∑ i, (a i : ℤ) * sv i [ZMOD qKS] := by
  have products : ∀ i, a i * sv i < qKS := fun i => product_lt (small i) (bit i)
  have start : modAdd w e value qKS = entryStart qKS e value := modAdd_eq (by omega) word
  have reduced : entryStart qKS e value < qKS := Nat.mod_lt _ (by omega)
  have begun : ((entryStart qKS e value : ℕ) : ℤ) ≡ e + value [ZMOD qKS] := by
    rw [entryStart, Int.natCast_mod, Nat.cast_add]
    exact Int.mod_modEq _ _
  have total : ((entryStart qKS e value + ∑ i, a i * sv i : ℕ) : ℤ) ≡ e + value + ∑ i, (a i : ℤ) * sv i [ZMOD qKS] := by
    push_cast
    exact begun.add_right _
  cases w with
  | w32 =>
    rw [switchingEntry.eq_def]
    dsimp only
    rw [start, reducedSum h2 word products reduced]
    refine ⟨Nat.mod_lt _ (by omega), ?_⟩
    rw [lostCarries, Nat.cast_zero, mul_zero, add_zero, Int.natCast_mod]
    exact (Int.mod_modEq _ _).trans total
  | w64 =>
    rw [switchingEntry.eq_def]
    dsimp only
    rw [start, addProducts_wrap h2 (by omega) products (by omega)]
    refine ⟨Nat.mod_lt _ (by omega), ?_⟩
    have whole : ((wrap .w64 (entryStart qKS e value + ∑ i, a i * sv i) : ℕ) : ℤ) +
        2 ^ NativeSize.w64.bits * lostCarries .w64 sv a (entryStart qKS e value) =
          (entryStart qKS e value + ∑ i, a i * sv i : ℕ) := by
      rw [wrap, lostCarries]
      exact_mod_cast Nat.mod_add_div _ _
    rw [Int.natCast_mod]
    refine ((Int.mod_modEq _ _).add_right _).trans ?_
    rw [whole]
    exact total

theorem lostCarries_of_lt {sv a : Fin n → ℕ} {start : ℕ} (fits : start + ∑ i, a i * sv i < 2 ^ w.bits) :
    lostCarries w sv a start = 0 := by
  cases w with
  | w32 => rfl
  | w64 => exact Nat.div_eq_of_lt fits

/-- The value of a digit of `c`: no power of the base that is in use wraps. -/
theorem digitValue_digit {qKS baseKS : ℕ} (word : qKS ≤ 2 ^ w.bits) (base : 0 < baseKS) (svNi : ℕ) {c : ℕ}
    (small : c < qKS) (j : ℕ) :
    digitValue w qKS baseKS svNi (c / baseKS ^ j % baseKS) j = svNi * (c / baseKS ^ j % baseKS * baseKS ^ j) % qKS := by
  rw [digitValue, modMulFast]
  congr 2
  rcases Nat.eq_zero_or_pos (c / baseKS ^ j % baseKS) with zero | used
  · rw [zero, NativeInteger.mul, zero_mul, zero_mul, wrap, Nat.zero_mod]
  · have below : c / baseKS ^ j % baseKS * baseKS ^ j ≤ c :=
      (Nat.mul_le_mul_right _ (Nat.mod_le _ _)).trans (Nat.div_mul_le_self _ _)
    have power : baseKS ^ j ≤ c := (Nat.le_mul_of_pos_left _ used).trans below
    have iterated : mulIterate w baseKS 1 j = baseKS ^ j := by
      rw [mulIterate_eq base j (by rw [one_mul]; omega), one_mul]
    rw [iterated, NativeInteger.mul, wrap_of_lt (by omega)]

/-- What the digits of one entry of a ciphertext select from a generated key. -/
theorem sum_keyTerms {qKS baseKS digitCount : ℕ} (h2 : 2 ≤ qKS) (word : 2 * qKS ≤ 2 ^ w.bits)
    (cover : qKS ≤ baseKS ^ digitCount) {sv : Fin n → ℕ} (bit : ∀ i, sv i = 0 ∨ sv i = 1) {mask : ℕ → ℕ → Fin n → ℕ}
    (small : ∀ digit j i, mask digit j i < qKS) (error : ℕ → ℕ → ℕ) (svNi : ℕ) {c : ℕ} (reduced : c < qKS) :
    let digit := fun j => c / baseKS ^ j % baseKS
    (∑ j ∈ Finset.range digitCount, ((switchingEntry w qKS sv (mask (digit j) j) (error (digit j) j)
        (digitValue w qKS baseKS svNi (digit j) j) : ℤ) - ∑ i, (mask (digit j) j i : ℤ) * sv i)) +
        2 ^ w.bits * ∑ j ∈ Finset.range digitCount, (lostCarries w sv (mask (digit j) j)
          (entryStart qKS (error (digit j) j) (digitValue w qKS baseKS svNi (digit j) j)) : ℤ) ≡
      c * svNi + ∑ j ∈ Finset.range digitCount, (error (digit j) j : ℤ) [ZMOD qKS] := by
  intro digit
  have once : ∀ j ∈ Finset.range digitCount, ((switchingEntry w qKS sv (mask (digit j) j) (error (digit j) j)
      (digitValue w qKS baseKS svNi (digit j) j) : ℤ) - ∑ i, (mask (digit j) j i : ℤ) * sv i) +
      2 ^ w.bits * (lostCarries w sv (mask (digit j) j)
        (entryStart qKS (error (digit j) j) (digitValue w qKS baseKS svNi (digit j) j)) : ℤ) ≡
      ((digit j * baseKS ^ j : ℕ) : ℤ) * svNi + error (digit j) j [ZMOD qKS] := by
    intro j inside
    have base : 0 < baseKS := by
      by_contra none
      rw [show baseKS = 0 by omega, zero_pow (by have := Finset.mem_range.mp inside; omega)] at cover
      omega
    have entry := (switchingEntry_spec h2 word (small (digit j) j) bit (error (digit j) j)
      (digitValue w qKS baseKS svNi (digit j) j)).2
    have value : (digitValue w qKS baseKS svNi (digit j) j : ℤ) ≡ ((digit j * baseKS ^ j : ℕ) : ℤ) * svNi [ZMOD qKS] := by
      rw [digitValue_digit (by omega) base svNi reduced j, Int.natCast_mod, Nat.cast_mul, mul_comm]
      exact Int.mod_modEq _ _
    have cleared := entry.sub_right (∑ i, (mask (digit j) j i : ℤ) * sv i)
    rw [add_sub_cancel_right, add_sub_right_comm] at cleared
    rw [add_comm _ (error (digit j) j : ℤ)]
    exact cleared.trans (value.add_left _)
  have recomposed : ∑ j ∈ Finset.range digitCount, digit j * baseKS ^ j = c := by
    rw [Finset.sum_range, Radix.sum_digits, Nat.mod_eq_of_lt (reduced.trans_le cover)]
  rw [Finset.mul_sum, ← Finset.sum_add_distrib]
  refine (Int.ModEq.sum once).trans ?_
  rw [Finset.sum_add_distrib, ← Finset.sum_mul, ← Nat.cast_sum, recomposed]

/-- Modulo one the masks are zero, and so is every product. -/
theorem switchingEntry_one (sv a : Fin n → ℕ) (small : ∀ i, a i < 1) (e value : ℕ) : switchingEntry w 1 sv a e value < 1 := by
  have start : modAdd w e value 1 < 1 := by
    rw [modAdd_eq (by omega) (Nat.one_lt_two_pow (by cases w <;> decide))]
    exact Nat.mod_lt _ (by omega)
  cases w with
  | w32 =>
    rw [switchingEntry.eq_def]
    refine List.foldlRecOn (motive := fun b : ℕ => b < 1) _ _ start fun b below i _ => ?_
    rw [show a i = 0 by have := small i; omega, modMulFastMu_zero (by omega)]
    exact modAddFast_lt below (by omega) Nat.one_le_two_pow
  | w64 =>
    rw [switchingEntry.eq_def]
    exact Nat.mod_lt _ (by omega)

theorem switchingEntry_lt {qKS : ℕ} (pos : 0 < qKS) (word : 2 * qKS ≤ 2 ^ w.bits) {sv a : Fin n → ℕ}
    (small : ∀ i, a i < qKS) (bit : ∀ i, sv i = 0 ∨ sv i = 1) (e value : ℕ) : switchingEntry w qKS sv a e value < qKS := by
  rcases Nat.lt_or_ge qKS 2 with one | h2
  · obtain rfl : qKS = 1 := by omega
    exact switchingEntry_one sv a small e value
  · exact (switchingEntry_spec h2 word small bit e value).1

theorem switchKey_bit {sk : LWEPrivateKey n} (h2 : 2 ≤ sk.modulus) (bit : ∀ i, sk.element i = 0 ∨ sk.element i = 1) {qKS : ℕ}
    (hq : 2 ≤ qKS) : switchKey w qKS sk = sk.element := funext fun i => switchModulus_bit (bit i) h2 hq

theorem switchKey_binary {sk : LWEPrivateKey n} (h2 : 2 ≤ sk.modulus) (bit : ∀ i, sk.element i = 0 ∨ sk.element i = 1)
    {qKS : ℕ} (pos : 0 < qKS) (i : Fin n) : switchKey w qKS sk i = 0 ∨ switchKey w qKS sk i = 1 := by
  rcases Nat.lt_or_ge qKS 2 with one | hq
  · obtain rfl : qKS = 1 := by omega
    have half : ¬ sk.element i > sk.modulus / 2 := by have := bit i; omega
    rw [switchKey, switchModulus, if_neg (by omega)]
    dsimp only
    rw [if_neg half]
    split
    · exact .inl (Nat.mod_one _)
    · exact bit i
  · rw [switchKey_bit h2 bit hq]
    exact bit i

/-- The key of one party. -/
def generatedKey {N : ℕ} (w : NativeSize) (qKS baseKS : ℕ) (sk : LWEPrivateKey n) (skN : LWEPrivateKey N)
    (masks : Fin N → ℕ → ℕ → Fin n → ℕ) (errors : Fin N → ℕ → ℕ → ℕ) : SwitchingKey N n where
  A := masks
  B := fun i j l => switchingEntry w qKS (switchKey w qKS sk) (masks i j l) (errors i j l)
    (digitValue w qKS baseKS (switchKey w qKS skN i) j l)

section Generated
variable {N qKS baseKS : ℕ} {sk : LWEPrivateKey n} {skN : LWEPrivateKey N} {masks : Fin N → ℕ → ℕ → Fin n → ℕ}

theorem generatedKey_reduced (pos : 0 < qKS) (word : 2 * qKS ≤ 2 ^ w.bits) (h2 : 2 ≤ sk.modulus)
    (bit : ∀ i, sk.element i = 0 ∨ sk.element i = 1) (small : ∀ i digit j l, masks i digit j l < qKS)
    (errors : Fin N → ℕ → ℕ → ℕ) : (generatedKey w qKS baseKS sk skN masks errors).Reduced qKS :=
  ⟨small, fun i digit j => switchingEntry_lt pos word (small i digit j) (switchKey_binary h2 bit pos) _ _⟩

/-- The carries lost in the entries that the digits of `c` select. -/
def carriesLost (w : NativeSize) (qKS baseKS digitCount : ℕ) (sk : LWEPrivateKey n) (skN : LWEPrivateKey N)
    (masks : Fin N → ℕ → ℕ → Fin n → ℕ) (errors : Fin N → ℕ → ℕ → ℕ) (c : Fin N → ℕ) : ℕ :=
  ∑ i, ∑ j ∈ Finset.range digitCount,
    let digit := c i / baseKS ^ j % baseKS
    lostCarries w sk.element (masks i digit j)
      (entryStart qKS (errors i digit j) (digitValue w qKS baseKS (switchKey w qKS skN i) digit j))

/-- The errors that the digits of `c` select. -/
def selectedErrors (baseKS digitCount : ℕ) (errors : Fin N → ℕ → ℕ → ℕ) (c : Fin N → ℕ) : ℤ :=
  ∑ i, ∑ j ∈ Finset.range digitCount, (errors i (c i / baseKS ^ j % baseKS) j : ℤ)

theorem sum_generatedKey {digitCount : ℕ} (hq : 2 ≤ qKS) (room : ¬ modulusTooLarge w qKS) (cover : qKS ≤ baseKS ^ digitCount)
    (h2 : 2 ≤ sk.modulus) (bit : ∀ i, sk.element i = 0 ∨ sk.element i = 1) (ring : skN.Generated w)
    (small : ∀ i digit j l, masks i digit j l < qKS) (errors : Fin N → ℕ → ℕ → ℕ) (ctQN : LWECiphertext N)
    (reduced : ∀ i, ctQN.a i < qKS) :
    (∑ i, ((List.range digitCount).map fun j => keyTerm (generatedKey w qKS baseKS sk skN masks errors) baseKS
        (fun l => sk.element l) ctQN i j).sum) + 2 ^ w.bits * carriesLost w qKS baseKS digitCount sk skN masks errors ctQN.a ≡
      (∑ i, (ctQN.a i : ℤ) * skN.signed i) + selectedErrors baseKS digitCount errors ctQN.a [ZMOD qKS] := by
  have word := lt_of_not_tooLarge room
  have ringWord := lt_of_not_tooLarge ring.modulus_ok
  have entry : ∀ i, ((List.range digitCount).map fun j => keyTerm (generatedKey w qKS baseKS sk skN masks errors) baseKS
        (fun l => sk.element l) ctQN i j).sum + 2 ^ w.bits * ∑ j ∈ Finset.range digitCount,
          (lostCarries w sk.element (masks i (ctQN.a i / baseKS ^ j % baseKS) j)
            (entryStart qKS (errors i (ctQN.a i / baseKS ^ j % baseKS) j) (digitValue w qKS baseKS (switchKey w qKS skN i)
              (ctQN.a i / baseKS ^ j % baseKS) j)) : ℤ) ≡
      ctQN.a i * skN.signed i + ∑ j ∈ Finset.range digitCount, (errors i (ctQN.a i / baseKS ^ j % baseKS) j : ℤ)
        [ZMOD qKS] := by
    intro i
    have terms := sum_keyTerms (w := w) hq (by omega) cover bit (small i) (errors i) (switchKey w qKS skN i) (reduced i)
    rw [← switchKey_bit (w := w) h2 bit hq] at terms ⊢
    refine Int.ModEq.trans terms (Int.ModEq.add_right _ (Int.ModEq.mul_left _ ?_))
    exact switchModulus_cast (ring.element_lt i) (by omega) (by omega)
  rw [carriesLost, selectedErrors, Nat.cast_sum, Finset.mul_sum, ← Finset.sum_add_distrib, ← Finset.sum_add_distrib]
  refine Int.ModEq.sum fun i _ => ?_
  rw [Nat.cast_sum]
  exact entry i

end Generated

end LWE

namespace MKLWE
variable {w : NativeSize} {k n N qKS : ℕ}

/-- The keys of the parties as one. -/
def SwitchingKey.ofParties (K : Fin k → LWE.SwitchingKey N n) (reduced : ∀ u, (K u).Reduced qKS) : SwitchingKey k N n qKS where
  A u := (K u).A
  B u := (K u).B
  A_lt u := (reduced u).A_lt
  B_lt u := (reduced u).B_lt

/-- The carries that the entries which the digits of a ciphertext select have lost. -/
def carriesLost (w : NativeSize) (qKS baseKS digitCount : ℕ) (sk : Fin k → LWEPrivateKey n) (skN : Fin k → LWEPrivateKey N)
    (masks : Fin k → Fin N → ℕ → ℕ → Fin n → ℕ) (errors : Fin k → Fin N → ℕ → ℕ → ℕ) (ctQN : MKLWECiphertext k N) : ℕ :=
  ∑ u, LWE.carriesLost w qKS baseKS digitCount (sk u) (skN u) (masks u) (errors u) (ctQN.a u)

/-- The phase under the ring secrets less the errors that the digits select. -/
def switchedPhase (baseKS digitCount : ℕ) (skN : Fin k → LWEPrivateKey N) (errors : Fin k → Fin N → ℕ → ℕ → ℕ)
    (ctQN : MKLWECiphertext k N) : ℤ :=
  ctQN.b - (∑ u, ∑ i, (ctQN.a u i : ℤ) * (skN u).signed i) -
    ∑ u, ∑ i, ∑ j ∈ Finset.range digitCount, (errors u i (ctQN.a u i / baseKS ^ j % baseKS) j : ℤ)

/-- What the callers of the two functions bring. -/
structure SwitchInputs (w : NativeSize) (qKS : ℕ) (sk : Fin k → LWEPrivateKey n) (skN : Fin k → LWEPrivateKey N)
    (masks : Fin k → Fin N → ℕ → ℕ → Fin n → ℕ) (ctQN : MKLWECiphertext k N) : Prop where
  room : ¬ modulusTooLarge w qKS
  key : ∀ u, 2 ≤ (sk u).modulus
  bit : ∀ u i, (sk u).element i = 0 ∨ (sk u).element i = 1
  ring : ∀ u, (skN u).Generated w
  masks_lt : ∀ u i digit j l, masks u i digit j l < qKS
  reduced : Reduced ctQN
  modulus : ctQN.modulus = qKS

variable {baseKS digitCount : ℕ} {sk : Fin k → LWEPrivateKey n} {skN : Fin k → LWEPrivateKey N}
variable {masks : Fin k → Fin N → ℕ → ℕ → Fin n → ℕ} {errors : Fin k → Fin N → ℕ → ℕ → ℕ} {ctQN : MKLWECiphertext k N}

theorem SwitchInputs.pos (inputs : SwitchInputs w qKS sk skN masks ctQN) : 0 < qKS :=
  inputs.modulus ▸ Nat.zero_lt_of_lt inputs.reduced.b_lt

/-- The carries that the generated key has lost come back in the phase. -/
theorem keySwitch_phase (inputs : SwitchInputs w qKS sk skN masks ctQN) (cover : qKS ≤ baseKS ^ digitCount)
    (errors : Fin k → Fin N → ℕ → ℕ → ℕ) :
    ∃ K, keySwitchGen w qKS baseKS sk skN masks errors = .ok K ∧ ∃ reduced : ∀ u, (K u).Reduced qKS,
      let ct := keySwitch w (.ofParties K reduced) baseKS digitCount ctQN
      Reduced ct ∧ ct.modulus = qKS ∧ phase (fun u => (sk u).element) ct ≡
        switchedPhase baseKS digitCount skN errors ctQN +
          2 ^ w.bits * carriesLost w qKS baseKS digitCount sk skN masks errors ctQN [ZMOD qKS] := by
  have word := lt_of_not_tooLarge inputs.room
  have pos := inputs.pos
  have hb : ctQN.b < qKS := inputs.modulus ▸ inputs.reduced.b_lt
  have ha : ∀ u i, ctQN.a u i < qKS := fun u i => inputs.modulus ▸ inputs.reduced.a_lt u i
  let K : Fin k → LWE.SwitchingKey N n := fun u => LWE.generatedKey w qKS baseKS (sk u) (skN u) (masks u) (errors u)
  have run : keySwitchGen w qKS baseKS sk skN masks errors = .ok K := by
    rw [keySwitchGen, setModulus, if_neg inputs.room]
    rfl
  have keys : ∀ u, (K u).Reduced qKS := fun u =>
    LWE.generatedKey_reduced pos (by omega) (inputs.key u) (inputs.bit u) (inputs.masks_lt u) _
  obtain ⟨reduced, modulus⟩ := keySwitch_reduced (w := w) pos (by omega) (.ofParties K keys) baseKS digitCount hb
  refine ⟨K, run, keys, reduced, modulus, ?_⟩
  rcases Nat.lt_or_ge qKS 2 with one | hq
  · have trivially : ∀ x y : ℤ, x ≡ y [ZMOD qKS] := fun x y => by
      rw [show qKS = 1 by omega, Nat.cast_one]
      exact Int.modEq_one
    exact trivially _ _
  have party : ∀ u, (∑ i, ((List.range digitCount).map fun j =>
      keyTerm (.ofParties K keys) baseKS (fun u => (sk u).element) ctQN u i j).sum) +
        2 ^ w.bits * (LWE.carriesLost w qKS baseKS digitCount (sk u) (skN u) (masks u) (errors u) (ctQN.a u) : ℤ) ≡
      (∑ i, (ctQN.a u i : ℤ) * (skN u).signed i) + LWE.selectedErrors baseKS digitCount (errors u) (ctQN.a u) [ZMOD qKS] :=
    fun u => LWE.sum_generatedKey hq inputs.room cover (inputs.key u) (inputs.bit u) (inputs.ring u) (inputs.masks_lt u) _
      { a := ctQN.a u, b := ctQN.b, modulus := qKS } (ha u)
  have parties := Int.ModEq.sum fun u (_ : u ∈ Finset.univ) => party u
  rw [Finset.sum_add_distrib, Finset.sum_add_distrib, ← Finset.mul_sum] at parties
  refine (phase_keySwitch pos (by omega) _ baseKS digitCount _ hb).trans ?_
  have moved := parties.sub_left (ctQN.b + 2 ^ w.bits * carriesLost w qKS baseKS digitCount sk skN masks errors ctQN)
  rw [← Nat.cast_sum, ← carriesLost, add_sub_add_right_eq_sub] at moved
  refine moved.trans ?_
  rw [switchedPhase, show ∀ b l y e : ℤ, b + l - (y + e) = b - y - e + l from fun b l y e => by ring]
  exact Int.ModEq.refl _

/-- Key switching keeps the phase up to the selected errors exactly where the lost carries cancel modulo `qKS`. -/
theorem keySwitch_keeps_phase_iff (inputs : SwitchInputs w qKS sk skN masks ctQN) (cover : qKS ≤ baseKS ^ digitCount)
    (errors : Fin k → Fin N → ℕ → ℕ → ℕ) :
    ∃ K, keySwitchGen w qKS baseKS sk skN masks errors = .ok K ∧ ∃ reduced : ∀ u, (K u).Reduced qKS,
      let ct := keySwitch w (.ofParties K reduced) baseKS digitCount ctQN
      ((Reduced ct ∧ ct.modulus = qKS) ∧
          phase (fun u => (sk u).element) ct ≡ switchedPhase baseKS digitCount skN errors ctQN [ZMOD qKS]) ↔
        (qKS : ℤ) ∣ 2 ^ w.bits * carriesLost w qKS baseKS digitCount sk skN masks errors ctQN := by
  obtain ⟨K, run, keys, reduced, modulus, phase_eq⟩ := keySwitch_phase inputs cover errors
  refine ⟨K, run, keys, ?_⟩
  intro ct
  have difference : (qKS : ℤ) ∣ 2 ^ w.bits * carriesLost w qKS baseKS digitCount sk skN masks errors ctQN ↔
      switchedPhase baseKS digitCount skN errors ctQN + 2 ^ w.bits * carriesLost w qKS baseKS digitCount sk skN masks errors ctQN ≡
        switchedPhase baseKS digitCount skN errors ctQN [ZMOD qKS] := by
    rw [Int.modEq_comm, Int.modEq_iff_dvd, add_sub_cancel_left]
  rw [difference]
  constructor
  · rintro ⟨-, kept⟩
    exact phase_eq.symm.trans kept
  · intro cancelled
    exact ⟨⟨reduced, modulus⟩, phase_eq.trans cancelled⟩

/-- None is lost in the 32-bit build, nor where `n + 1` residues fit the word. -/
theorem carriesLost_eq_zero (inputs : SwitchInputs w qKS sk skN masks ctQN) (fits : w = .w32 ∨ (n + 1) * qKS ≤ 2 ^ w.bits) :
    carriesLost w qKS baseKS digitCount sk skN masks errors ctQN = 0 := by
  refine Finset.sum_eq_zero fun u _ => Finset.sum_eq_zero fun i _ => Finset.sum_eq_zero fun j _ => ?_
  rcases fits with rfl | fits
  · rfl
  · refine LWE.lostCarries_of_lt (lt_of_lt_of_le ?_ fits)
    obtain ⟨digit, hdigit⟩ : ∃ digit, digit = ctQN.a u i / baseKS ^ j % baseKS := ⟨_, rfl⟩
    have sum : ∑ l, masks u i digit j l * (sk u).element l ≤ n * qKS := by
      have each : ∀ l ∈ Finset.univ, masks u i digit j l * (sk u).element l ≤ qKS := fun l _ =>
        (LWE.product_lt (inputs.masks_lt u i digit j l) (inputs.bit u l)).le
      simpa using Finset.sum_le_card_nsmul Finset.univ _ qKS each
    have start : LWE.entryStart qKS (errors u i digit j) (LWE.digitValue w qKS baseKS (LWE.switchKey w qKS (skN u) i) digit j) <
        qKS := Nat.mod_lt _ inputs.pos
    rw [← hdigit, add_mul, one_mul]
    omega

/-- Seventeen full masks modulo `2 ^ 60 - 1` under the key of ones, in the 64-bit build: a carry is lost in the entry of
each digit, and the ciphertext zero does not switch to one of phase zero. -/
theorem seventeen_masks_lose_carries :
    let sk : Fin 1 → LWEPrivateKey 17 := fun _ => ⟨fun _ => 1, 4096⟩
    let skN : Fin 1 → LWEPrivateKey 1 := fun _ => ⟨fun _ => 0, 257⟩
    let masks : Fin 1 → Fin 1 → ℕ → ℕ → Fin 17 → ℕ := fun _ _ _ _ _ => 2 ^ 60 - 2
    let ctQN : MKLWECiphertext 1 1 := { a := fun _ _ => 0, b := 0, modulus := 2 ^ 60 - 1 }
    SwitchInputs .w64 (2 ^ 60 - 1) sk skN masks ctQN ∧ 2 ^ 60 - 1 ≤ 1024 ^ 6 ∧
    ∃ K, keySwitchGen .w64 (2 ^ 60 - 1) 1024 sk skN masks (fun _ _ _ _ => 0) = .ok K ∧
      ∃ reduced : ∀ u, (K u).Reduced (2 ^ 60 - 1),
        ¬ phase (fun u => (sk u).element) (keySwitch .w64 (.ofParties K reduced) 1024 6 ctQN) ≡
          switchedPhase 1024 6 skN (fun _ _ _ _ => 0) ctQN [ZMOD ((2 ^ 60 - 1 : ℕ) : ℤ)] := by
  intro sk skN masks ctQN
  have inputs : SwitchInputs .w64 (2 ^ 60 - 1) sk skN masks ctQN :=
    ⟨by decide +kernel, by decide, fun _ _ => .inr rfl, fun _ => ⟨by decide, by decide +kernel⟩,
      fun _ _ _ _ _ => by decide +kernel, ⟨by decide +kernel, by decide +kernel⟩, rfl⟩
  have cover : 2 ^ 60 - 1 ≤ 1024 ^ 6 := by decide +kernel
  obtain ⟨K, run, reduced, -, -, phase_eq⟩ := keySwitch_phase inputs cover (fun _ _ _ _ => 0)
  refine ⟨inputs, cover, K, run, reduced, fun kept => ?_⟩
  have lost : (((2 ^ 60 - 1 : ℕ) : ℤ)) ∣
      2 ^ NativeSize.w64.bits * carriesLost .w64 (2 ^ 60 - 1) 1024 6 sk skN masks (fun _ _ _ _ => 0) ctQN := by
    have cancelled := phase_eq.symm.trans kept
    rwa [Int.modEq_comm, Int.modEq_iff_dvd, add_sub_cancel_left] at cancelled
  have count : carriesLost .w64 (2 ^ 60 - 1) 1024 6 sk skN masks (fun _ _ _ _ => 0) ctQN = 6 := by decide +kernel
  rw [count] at lost
  revert lost
  decide +kernel

/-- Two parties modulo 257 with three digits, where all sums fit. -/
theorem small_keys_switch :
    let sk : Fin 2 → LWEPrivateKey 2 := fun _ => ⟨![1, 0], 4096⟩
    let skN : Fin 2 → LWEPrivateKey 1 := fun _ => ⟨fun _ => 16, 17⟩
    let masks : Fin 2 → Fin 1 → ℕ → ℕ → Fin 2 → ℕ := fun u _ digit j _ => u + 8 * digit + j
    let errors : Fin 2 → Fin 1 → ℕ → ℕ → ℕ := fun _ _ digit _ => digit
    let ctQN : MKLWECiphertext 2 1 := { a := ![![100], ![200]], b := 50, modulus := 257 }
    ∃ K, keySwitchGen .w64 257 8 sk skN (fun u i digit j l => masks u i digit j l % 257) errors = .ok K ∧
      ∃ reduced : ∀ u, (K u).Reduced 257,
        let ct := keySwitch .w64 (.ofParties K reduced) 8 3 ctQN
        (Reduced ct ∧ ct.modulus = 257) ∧
          phase (fun u => (sk u).element) ct ≡ switchedPhase 8 3 skN errors ctQN [ZMOD (257 : ℕ)] := by
  intro sk skN masks errors ctQN
  have inputs : SwitchInputs .w64 257 sk skN (fun u i digit j l => masks u i digit j l % 257) ctQN :=
    ⟨by decide, by decide, by decide, fun _ => ⟨by decide, by decide⟩, fun _ _ _ _ _ => Nat.mod_lt _ (by decide),
      ⟨by decide, by decide⟩, rfl⟩
  have cover : 257 ≤ 8 ^ 3 := by decide
  obtain ⟨K, run, reduced, kept⟩ := keySwitch_keeps_phase_iff inputs cover errors
  refine ⟨K, run, reduced, kept.mpr ?_⟩
  rw [carriesLost_eq_zero inputs (.inr (by decide))]
  exact ⟨0, rfl⟩

end MKLWE
end MultiKeyFHE
