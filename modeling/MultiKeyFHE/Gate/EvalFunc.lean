import MultiKeyFHE.Gate.InputFunction
import MultiKeyFHE.Gate.Sign

/-!
# Evaluation of arbitrary functions

`EvalFunc` looks a table up at the phase of a ciphertext. A table that changes its sign needs one bootstrapping. For one
that repeats, a first bootstrapping moves the phase to the lower half of the circle, and for the others the modulus is
doubled before that, so that the whole circle is a lower half.
-/

namespace MultiKeyFHE
open NativeInteger NativeVector

namespace BinFHEScheme
open LWEGate
variable (w : NativeSize) {n : ℕ}

def readTable (LUT : List ℕ) : Func := fun x _ _ => LUT.getD x 0

/-- The table on the lower half of the circle, and its negation on the upper. -/
def foldTable (LUT : List ℕ) : Func := fun x q Q =>
  if x < q >>> 1 then LUT.getD x 0 else sub w Q (LUT.getD (x - q / 2) 0)

def dimensionTooSmall : Fault := .notImplementedError
  "ERROR: ciphertext modulus q needs to be <= ring dimension for arbitrary function evaluation"

variable (N : ℕ) (bootstrapFunc : LWECiphertext n → Func → ℕ → Except Fault (LWECiphertext n))

/-- What two of the paths begin with: the phase less a quarter with the sign of its half, or plus one, and then less the
constant. -/
def toLowerHalf (ct : LWECiphertext n) (beta cnst : ℕ) : Except Fault (LWECiphertext n) := do
  let ct2 ← bootstrapFunc (LWE.evalAddConstEq w (LWE.copy ct) beta) (halfSign w) ct.modulus
  let ct2 ← LWE.evalSubEq2 w ct ct2
  return LWE.evalSubConstEq w (LWE.evalAddConstEq w ct2 beta) cnst

def evalFunc (ct : LWECiphertext n) (LUT : List ℕ) (beta : ℕ) : Except Fault (LWECiphertext n) := do
  let ct1 := LWE.copy ct
  let q := ct.modulus
  let functionProperty ← checkInputFunction w LUT q
  if functionProperty = 0 then bootstrapFunc (LWE.evalAddConstEq w ct1 beta) (readTable LUT) q
  else if functionProperty = 2 then
    if q > N then throw dimensionTooSmall
    let dq := wrap w (q <<< 1)
    let ct1 ← LWE.relabelModulus w dq ct1
    let ct3 ← toLowerHalf w bootstrapFunc ct1 beta (q >>> 1)
    let ct4 ← bootstrapFunc ct3 (foldTable w (LUT ++ LUT)) dq
    LWE.changeModulus w q ct4
  else
    let ct2 ← toLowerHalf w bootstrapFunc ct beta (q >>> 2)
    bootstrapFunc ct2 (foldTable w LUT) q

/-! ### One bootstrapping -/

/-- What is assumed of `BootstrapFunc` under the secret `s`: for a function that changes its sign after half of the
circle it returns the value at the phase, up to less than half of `beta`. -/
def Bootstraps (s : Fin n → ℤ) (beta : ℕ) : Prop :=
  ∀ (ct : LWECiphertext n) (f : Func) (fmod : ℕ), LWE.Reduced ct → 0 < fmod →
    (∀ x < ct.modulus / 2, (f x ct.modulus fmod + f (x + ct.modulus / 2) ct.modulus fmod) % fmod = 0) →
    ∃ ct', ∃ noise : ℤ, bootstrapFunc ct f fmod = .ok ct' ∧ LWE.Reduced ct' ∧ ct'.modulus = fmod ∧ 2 * |noise| < beta ∧
      LWE.phase s ct' ≡ f (LWE.phase s ct % ct.modulus).toNat ct.modulus fmod + noise [ZMOD fmod]

/-- The same for ciphertexts and values modulo `c` only. -/
def BootstrapsTo (s : Fin n → ℤ) (beta c : ℕ) : Prop :=
  ∀ (ct : LWECiphertext n) (f : Func), LWE.Reduced ct → ct.modulus = c → (∀ x < c, f x c c ≤ c) →
    (∀ x < c / 2, (f x c c + f (x + c / 2) c c) % c = 0) →
    ∃ ct', ∃ noise : ℤ, bootstrapFunc ct f c = .ok ct' ∧ LWE.Reduced ct' ∧ ct'.modulus = c ∧ 2 * |noise| < beta ∧
      LWE.phase s ct' ≡ f (LWE.phase s ct % c).toNat c c + noise [ZMOD c]

/-- `EvalFunc` with the evaluation keys of a context. -/
def evalFuncWith {P : SingleKeyParams} (plat : Platform) (round : FloorRound) (g : Gadget) (EK : EvalKeys P)
    (ct : LWECiphertext P.n) (LUT : List ℕ) (beta : ℕ) : Except Fault (LWECiphertext P.n) :=
  evalFunc w P.N (LWEGate.bootstrapFunc w plat round g EK) ct LUT beta

variable {w N bootstrapFunc} {s : Fin n → ℤ} {beta : ℕ} {ct : LWECiphertext n} {LUT : List ℕ} {c : ℕ}

theorem Bootstraps.to (boots : Bootstraps bootstrapFunc s beta) (c : ℕ) : BootstrapsTo bootstrapFunc s beta c := by
  intro ct f reduced modulus _ changes
  subst modulus
  exact boots ct f ct.modulus reduced (Nat.zero_lt_of_lt reduced.b_lt) changes

theorem toNat_emod {φ : ℤ} {x : ℕ} (below : x < c) (held : φ ≡ x [ZMOD c]) : (φ % c).toNat = x := by
  rw [held, Int.emod_eq_of_lt (Int.natCast_nonneg x) (by exact_mod_cast below), Int.toNat_natCast]

theorem halfSign_le (word : c < 2 ^ w.bits) (x : ℕ) : halfSign w x c c ≤ c := by
  have quarter : c >>> 2 ≤ c := by rw [Nat.shiftRight_eq_div_pow]; exact Nat.div_le_self ..
  rw [halfSign]
  split
  · rw [sub_of_le quarter word]
    exact Nat.sub_le _ _
  · exact quarter

theorem foldTable_le (word : c < 2 ^ w.bits) (le : ∀ i, LUT.getD i 0 ≤ c) (x : ℕ) : foldTable w LUT x c c ≤ c := by
  rw [foldTable]
  split
  · exact le x
  · rw [sub_of_le (le _) word]
    exact Nat.sub_le _ _

theorem halfSign_changes (word : c < 2 ^ w.bits) {x : ℕ} (hx : x < c / 2) :
    (halfSign w x c c + halfSign w (x + c / 2) c c) % c = 0 := by
  have low : x < c >>> 1 := by rw [Nat.shiftRight_eq_div_pow, pow_one]; exact hx
  have high : ¬ x + c / 2 < c >>> 1 := by rw [Nat.shiftRight_eq_div_pow, pow_one]; omega
  have quarter : c >>> 2 ≤ c := by rw [Nat.shiftRight_eq_div_pow]; exact Nat.div_le_self ..
  rw [halfSign, if_pos low, halfSign, if_neg high, sub_of_le quarter word, Nat.sub_add_cancel quarter, Nat.mod_self]

theorem foldTable_changes (word : c < 2 ^ w.bits) (le : ∀ i, LUT.getD i 0 ≤ c) {x : ℕ} (hx : x < c / 2) :
    (foldTable w LUT x c c + foldTable w LUT (x + c / 2) c c) % c = 0 := by
  have low : x < c >>> 1 := by rw [Nat.shiftRight_eq_div_pow, pow_one]; exact hx
  have high : ¬ x + c / 2 < c >>> 1 := by rw [Nat.shiftRight_eq_div_pow, pow_one]; omega
  rw [foldTable, if_pos low, foldTable, if_neg high, Nat.add_sub_cancel, sub_of_le (le x) word, Nat.add_sub_cancel' (le x), Nat.mod_self]

theorem foldTable_cast (word : c < 2 ^ w.bits) (le : ∀ i, LUT.getD i 0 ≤ c) (x : ℕ) :
    (foldTable w LUT x c c : ℤ) ≡
      if x < c / 2 then (LUT.getD x 0 : ℤ) else -(LUT.getD (x - c / 2) 0 : ℤ) [ZMOD c] := by
  rw [foldTable, Nat.shiftRight_eq_div_pow, pow_one]
  split
  · exact Int.ModEq.refl _
  · rw [sub_of_le (le _) word, Nat.cast_sub (le _)]
    exact Int.modEq_iff_dvd.mpr ⟨-1, by ring⟩

section Steps
variable (boots : BootstrapsTo bootstrapFunc s beta ct.modulus) (h : LWE.Reduced ct) (word : 2 * ct.modulus ≤ 2 ^ w.bits)
include boots h word

theorem toLowerHalf_ok (hbeta : beta < ct.modulus) {cnst : ℕ} (hcnst : cnst < ct.modulus) {r : ℕ} (hr : r < ct.modulus)
    (held : LWE.phase s ct + beta ≡ r [ZMOD ct.modulus]) :
    ∃ ct', ∃ noise : ℤ, toLowerHalf w bootstrapFunc ct beta cnst = .ok ct' ∧ LWE.Reduced ct' ∧ ct'.modulus = ct.modulus ∧
      2 * |noise| < beta ∧
      LWE.phase s ct' ≡ r - halfSign w r ct.modulus ct.modulus - noise - cnst [ZMOD ct.modulus] := by
  obtain ⟨shifted, moved⟩ := LWE.evalAddConstEq_ok (w := w) s h.copy (show beta < (LWE.copy ct).modulus from hbeta) word
  obtain ⟨ct2, noise, run, reduced, modulus, small, value⟩ := boots _ (halfSign w) shifted rfl
    (fun x _ => halfSign_le (by omega) x) fun x hx => halfSign_changes (c := ct.modulus) (by omega) hx
  have place : (LWE.phase s (LWE.evalAddConstEq w (LWE.copy ct) beta) % ct.modulus).toNat = r :=
    toNat_emod hr (moved.trans held)
  rw [place] at value
  obtain ⟨ct3, difference, reduced3, modulus3, phase3⟩ := LWE.evalSubEq2_ok s modulus.symm h reduced word
  obtain ⟨reduced4, phase4⟩ := LWE.evalAddConstEq_ok (w := w) s reduced3
    (show beta < ct3.modulus by rw [modulus3]; exact hbeta) (by rw [modulus3]; exact word)
  obtain ⟨reduced5, phase5⟩ := LWE.evalSubConstEq_ok (w := w) s reduced4
    (show cnst < ct3.modulus by rw [modulus3]; exact hcnst) (show ct3.modulus ≤ _ by rw [modulus3]; omega)
  refine ⟨LWE.evalSubConstEq w (LWE.evalAddConstEq w ct3 beta) cnst, noise, ?_, reduced5, modulus3, small, ?_⟩
  · rw [toLowerHalf, run]
    dsimp only [bind, Except.bind]
    rw [difference]
    rfl
  · rw [show (LWE.evalAddConstEq w ct3 beta).modulus = ct.modulus from modulus3] at phase5
    rw [modulus3] at phase4
    calc LWE.phase s (LWE.evalSubConstEq w (LWE.evalAddConstEq w ct3 beta) cnst)
        ≡ LWE.phase s ct - LWE.phase s ct2 + beta - cnst [ZMOD ct.modulus] :=
          phase5.trans ((phase4.trans (phase3.add_right _)).sub_right _)
      _ = LWE.phase s ct + beta - LWE.phase s ct2 - cnst := by ring
      _ ≡ r - (halfSign w r ct.modulus ct.modulus + noise) - cnst [ZMOD ct.modulus] :=
          (held.sub value).sub_right _
      _ = r - halfSign w r ct.modulus ct.modulus - noise - cnst := by ring

/-- With a quarter of the modulus as the constant, half of the circle is taken off the upper half. -/
theorem toLowerHalf_mod (hbeta : beta < ct.modulus) {quarter : ℕ} (size : ct.modulus = 4 * quarter) {r : ℕ}
    (hr : r < ct.modulus) (held : LWE.phase s ct + beta ≡ r [ZMOD ct.modulus]) :
    ∃ ct', ∃ noise : ℤ, toLowerHalf w bootstrapFunc ct beta quarter = .ok ct' ∧ LWE.Reduced ct' ∧ ct'.modulus = ct.modulus ∧
      2 * |noise| < beta ∧ LWE.phase s ct' ≡ (r % (2 * quarter) : ℕ) - noise [ZMOD ct.modulus] := by
  obtain ⟨ct', noise, run, reduced, modulus, small, value⟩ := toLowerHalf_ok boots h word hbeta
    (show quarter < ct.modulus by omega) hr held
  refine ⟨ct', noise, run, reduced, modulus, small, value.trans ?_⟩
  have whole : ct.modulus >>> 2 = quarter := by
    rw [Nat.shiftRight_eq_div_pow, size]
    omega
  have half : ct.modulus >>> 1 = 2 * quarter := by
    rw [Nat.shiftRight_eq_div_pow, size]
    omega
  rw [halfSign, whole, half]
  split
  · rename_i low
    rw [sub_of_le (by omega) (by omega), Nat.mod_eq_of_lt low, Nat.cast_sub (by omega)]
    exact Int.modEq_iff_dvd.mpr ⟨1, by ring⟩
  · rename_i high
    have rest : r % (2 * quarter) = r - 2 * quarter := by
      rw [Nat.mod_eq_sub_mod (by omega), Nat.mod_eq_of_lt (by omega)]
    rw [rest, Nat.cast_sub (by omega)]
    push_cast
    exact Int.modEq_iff_dvd.mpr ⟨0, by ring⟩

theorem foldTable_ok (le : ∀ i, LUT.getD i 0 ≤ ct.modulus) {x : ℕ} (hx : x < ct.modulus)
    (held : LWE.phase s ct ≡ x [ZMOD ct.modulus]) :
    ∃ ct', ∃ noise : ℤ, bootstrapFunc ct (foldTable w LUT) ct.modulus = .ok ct' ∧ LWE.Reduced ct' ∧ ct'.modulus = ct.modulus ∧
      2 * |noise| < beta ∧ LWE.phase s ct' ≡
        (if x < ct.modulus / 2 then (LUT.getD x 0 : ℤ) else -(LUT.getD (x - ct.modulus / 2) 0 : ℤ)) + noise [ZMOD ct.modulus] := by
  obtain ⟨ct', noise, run, reduced, modulus, small, value⟩ := boots ct (foldTable w LUT) h rfl
    (fun x _ => foldTable_le (by omega) le x) fun x hx => foldTable_changes (c := ct.modulus) (by omega) le hx
  rw [toNat_emod hx held] at value
  exact ⟨ct', noise, run, reduced, modulus, small, value.trans ((foldTable_cast (by omega) le x).add_right _)⟩

end Steps

/-! ### The three paths -/

/-- A table of `q` entries that are the same within blocks of `step`. -/
structure BlockTable (LUT : List ℕ) (q step : ℕ) : Prop where
  length : LUT.length = q
  lt : ∀ a ∈ LUT, a < q
  constant : ∀ i < q, LUT.getD i 0 = LUT.getD (i / step * step) 0

theorem BlockTable.getD_lt {q step : ℕ} (table : BlockTable LUT q step) (pos : 0 < q) (i : ℕ) : LUT.getD i 0 < q := by
  rcases Nat.lt_or_ge i LUT.length with inside | outside
  · exact BinFHEScheme.getD_lt table.lt inside
  · rw [List.getD_eq_default _ _ outside]
    exact pos

theorem BlockTable.getD_block {q step m x : ℕ} (table : BlockTable LUT q step) (hx : x < q) (low : m * step ≤ x)
    (high : x < (m + 1) * step) : LUT.getD x 0 = LUT.getD (m * step) 0 := by
  have block : x / step = m := Nat.div_eq_of_lt_le low high
  rw [table.constant x hx, block]

/-- What `EvalFunc` finds at the message `m`, with less than `beta` of noise. -/
def Finds (s : Fin n → ℤ) (q beta value : ℕ) (run : Except Fault (LWECiphertext n)) : Prop :=
  ∃ ct', ∃ noise : ℤ, run = .ok ct' ∧ ct'.modulus = q ∧ |noise| < beta ∧ LWE.phase s ct' ≡ value + noise [ZMOD q]

/-- With half of the noise, so that the result can be an input again. -/
def FindsNear (s : Fin n → ℤ) (q beta value : ℕ) (run : Except Fault (LWECiphertext n)) : Prop :=
  ∃ ct', ∃ noise : ℤ, run = .ok ct' ∧ LWE.Reduced ct' ∧ ct'.modulus = q ∧ 2 * |noise| < beta ∧
    LWE.phase s ct' ≡ value + noise [ZMOD q]

theorem FindsNear.finds {q value : ℕ} {run : Except Fault (LWECiphertext n)} (near : FindsNear s q beta value run) :
    Finds s q beta value run := by
  obtain ⟨ct', noise, ran, -, modulus, small, held⟩ := near
  exact ⟨ct', noise, ran, modulus, by have := abs_nonneg noise; omega, held⟩

/-- The phase plus `beta` is in the middle of the block of the message. -/
theorem exists_place {p m q : ℕ} {e φ : ℤ} (size : q = p * (2 * beta)) (hm : m < p) (he : 2 * |e| < beta)
    (held : φ ≡ (m * (2 * beta) : ℕ) + e [ZMOD q]) : ∃ r : ℕ, (r : ℤ) = (m * (2 * beta) : ℕ) + e + beta ∧
      φ + beta ≡ r [ZMOD q] ∧ m * (2 * beta) + 2 * beta ≤ q := by
  have bounds := abs_lt.mp (show |e| < (beta : ℤ) by have := abs_nonneg e; omega)
  obtain ⟨r, hr⟩ := Int.eq_ofNat_of_zero_le (show (0 : ℤ) ≤ (m * (2 * beta) : ℕ) + e + beta by omega)
  refine ⟨r, hr.symm, ?_, ?_⟩
  · rw [← hr]
    exact held.add_right _
  · rw [size, ← Nat.succ_mul]
    exact Nat.mul_le_mul_right _ hm

section Paths
variable {p m : ℕ} {e : ℤ} (h : LWE.Reduced ct) (word : 2 * ct.modulus ≤ 2 ^ w.bits)
  (table : BlockTable LUT ct.modulus (2 * beta)) (hm : m < p) (he : 2 * |e| < beta)
  (held : LWE.phase s ct ≡ (m * (2 * beta) : ℕ) + e [ZMOD ct.modulus])
include h word table hm he held

section
variable (boots : BootstrapsTo bootstrapFunc s beta ct.modulus)
include boots

theorem evalFunc_changing (size : ct.modulus = p * (2 * beta)) (kind : checkInputFunction w LUT ct.modulus = .ok 0)
    (changes : ChangesSign LUT ct.modulus) :
    FindsNear s ct.modulus beta (LUT.getD (m * (2 * beta)) 0) (evalFunc w N bootstrapFunc ct LUT beta) := by
  obtain ⟨r, hr, place, room⟩ := exists_place size hm he held
  have bounds := abs_lt.mp (show |e| < (beta : ℤ) by have := abs_nonneg e; omega)
  obtain ⟨shifted, moved⟩ := LWE.evalAddConstEq_ok (w := w) s h.copy (show beta < (LWE.copy ct).modulus from (show beta < ct.modulus by omega)) word
  have turns : ∀ x < ct.modulus / 2, (readTable LUT x ct.modulus ct.modulus +
      readTable LUT (x + ct.modulus / 2) ct.modulus ct.modulus) % ct.modulus = 0 := by
    intro x hx
    have here := changes x (by rw [table.length]; exact hx)
    rwa [table.length, add_comm (ct.modulus / 2)] at here
  obtain ⟨ct', noise, run, reduced, modulus, small, value⟩ := boots _ (readTable LUT) shifted rfl
    (fun x _ => (table.getD_lt (by omega) x).le) turns
  have position : (LWE.phase s (LWE.evalAddConstEq w (LWE.copy ct) beta) % ct.modulus).toNat = r :=
    toNat_emod (by omega) (moved.trans place)
  have found : LUT.getD r 0 = LUT.getD (m * (2 * beta)) 0 :=
    table.getD_block (by omega) (by omega) (by rw [Nat.succ_mul]; omega)
  rw [position, readTable, found] at value
  refine ⟨ct', noise, ?_, reduced, modulus, small, value⟩
  rw [evalFunc, kind]
  exact run

theorem evalFunc_repeating {half : ℕ} (even : p = 2 * half) (size : ct.modulus = p * (2 * beta))
    (kind : checkInputFunction w LUT ct.modulus = .ok 1) (repeats : Repeats LUT) :
    FindsNear s ct.modulus beta (LUT.getD (m * (2 * beta)) 0) (evalFunc w N bootstrapFunc ct LUT beta) := by
  obtain ⟨r, hr, place, room⟩ := exists_place size hm he held
  have bounds := abs_lt.mp (show |e| < (beta : ℤ) by have := abs_nonneg e; omega)
  have quarters : ct.modulus = 4 * (half * beta) := by rw [size, even]; ring
  obtain ⟨ct2, noise, run, reduced, modulus, small, value⟩ := toLowerHalf_mod boots h word (by omega) quarters
    (by omega) place
  -- the message in the lower half that has the same value
  obtain ⟨m', hm', there, low⟩ : ∃ m' < half, LUT.getD (m' * (2 * beta)) 0 = LUT.getD (m * (2 * beta)) 0 ∧
      (r % (2 * (half * beta)) : ℕ) = ((m' * (2 * beta) : ℕ) + e + beta : ℤ) := by
    have halves : half * (2 * beta) = 2 * (half * beta) := by ring
    rcases Nat.lt_or_ge m half with lower | upper
    · have block : (m + 1) * (2 * beta) ≤ half * (2 * beta) := Nat.mul_le_mul_right _ lower
      rw [Nat.succ_mul] at block
      exact ⟨m, lower, rfl, by rw [Nat.mod_eq_of_lt (by omega), hr]⟩
    · obtain ⟨m', rfl⟩ := Nat.exists_eq_add_of_le upper
      have block : (m' + 1) * (2 * beta) ≤ half * (2 * beta) := Nat.mul_le_mul_right _ (by omega)
      rw [Nat.succ_mul] at block
      rw [add_mul] at hr room ⊢
      have same := repeats (m' * (2 * beta)) (by rw [table.length]; omega)
      rw [table.length] at same
      refine ⟨m', by omega, same.trans (congrArg (LUT.getD · 0) (by omega)), ?_⟩
      rw [Nat.mod_eq_sub_mod (by omega), Nat.mod_eq_of_lt (by omega)]
      omega
  have block : (m' + 1) * (2 * beta) ≤ half * (2 * beta) := Nat.mul_le_mul_right _ hm'
  have halves : half * (2 * beta) = 2 * (half * beta) := by ring
  rw [Nat.succ_mul] at block
  have bounds' := abs_lt.mp (show |e - noise| < (beta : ℤ) by have := abs_sub e noise; omega)
  obtain ⟨x, hx⟩ := Int.eq_ofNat_of_zero_le (show (0 : ℤ) ≤ (m' * (2 * beta) : ℕ) + e + beta - noise by omega)
  rw [low, hx, ← modulus] at value
  obtain ⟨ct', noise', run', reduced', modulus', small', value'⟩ := foldTable_ok (modulus ▸ boots) reduced (by rw [modulus]; exact word)
    (fun i => by rw [modulus]; exact (table.getD_lt (by omega) i).le) (by omega) value
  have found : LUT.getD x 0 = LUT.getD (m' * (2 * beta)) 0 :=
    table.getD_block (by omega) (by omega) (by rw [Nat.succ_mul]; omega)
  rw [modulus] at run' modulus' value'
  rw [if_pos (by omega), found, there] at value'
  refine ⟨ct', noise', ?_, reduced', modulus', small', value'⟩
  rw [evalFunc, kind]
  dsimp only [bind, Except.bind]
  rw [if_neg one_ne_zero, if_neg (by norm_num), show ct.modulus >>> 2 = half * beta by
    rw [Nat.shiftRight_eq_div_pow, quarters]; omega, run]
  exact run'

end

theorem evalFunc_doubled (boots : BootstrapsTo bootstrapFunc s beta (2 * ct.modulus)) (size : ct.modulus = p * (2 * beta)) (kind : checkInputFunction w LUT ct.modulus = .ok 2)
    (other : ct.modulus ≠ 2) (small : ct.modulus ≤ N) (room : ¬ modulusTooLarge w (2 * N)) :
    FindsNear s ct.modulus beta (LUT.getD (m * (2 * beta)) 0) (evalFunc w N bootstrapFunc ct LUT beta) := by
  obtain ⟨r, hr, place, last⟩ := exists_place size hm he held
  have bounds := abs_lt.mp (show |e| < (beta : ℤ) by have := abs_nonneg e; omega)
  have roomDouble : ¬ modulusTooLarge w (2 * ct.modulus) := fun large =>
    room (large.trans_le (Nat.size_le_size (Nat.mul_le_mul_left 2 small)))
  have roomSingle : ¬ modulusTooLarge w ct.modulus := fun large =>
    roomDouble (large.trans_le (Nat.size_le_size (by omega)))
  have word' := lt_of_not_tooLarge roomDouble
  have halves : p * (2 * beta) = 2 * (p * beta) := by ring
  have double : wrap w (ct.modulus <<< 1) = 2 * ct.modulus := by
    rw [Nat.shiftLeft_eq, pow_one, mul_comm, wrap_of_lt (by omega)]
  let ct1 : LWECiphertext n := { LWE.copy ct with modulus := 2 * ct.modulus }
  have h1 : LWE.Reduced ct1 := by
    refine ⟨fun i => ?_, ?_⟩
    · exact (h.a_lt i).trans_le (show ct.modulus ≤ 2 * ct.modulus by omega)
    · exact h.b_lt.trans_le (show ct.modulus ≤ 2 * ct.modulus by omega)
  -- the place on the larger circle, which is one of two
  obtain ⟨R, hR, place', lower⟩ : ∃ R < 2 * ct.modulus, LWE.phase s ct1 + beta ≡ R [ZMOD (2 * ct.modulus : ℕ)] ∧
      R % (2 * (p * beta)) = r := by
    have pos : (0 : ℤ) < (2 * ct.modulus : ℕ) := by omega
    obtain ⟨R, value⟩ := Int.eq_ofNat_of_zero_le (Int.emod_nonneg (LWE.phase s ct1 + beta) pos.ne')
    have below := Int.emod_lt_of_pos (LWE.phase s ct1 + beta) pos
    have same : LWE.phase s ct1 + beta ≡ R [ZMOD (2 * ct.modulus : ℕ)] := by
      rw [← value]
      exact (Int.mod_modEq _ _).symm
    have single : (R : ℤ) ≡ r [ZMOD ct.modulus] :=
      (same.of_dvd (by push_cast; exact dvd_mul_left _ _)).symm.trans place
    refine ⟨R, by omega, same, ?_⟩
    rw [← halves, ← size]
    exact (Nat.mod_eq_of_modEq ((Int.natCast_modEq_iff).mp single) (by omega))
  obtain ⟨ct3, noise, run, reduced, modulus, small3, value⟩ := toLowerHalf_mod boots h1
    (show 2 * (2 * ct.modulus) ≤ 2 ^ w.bits by omega) (show beta < 2 * ct.modulus by omega)
    (show 2 * ct.modulus = 4 * (p * beta) by omega) hR place'
  have bounds' := abs_lt.mp (show |e - noise| < (beta : ℤ) by have := abs_sub e noise; omega)
  obtain ⟨x, hx⟩ := Int.eq_ofNat_of_zero_le (show (0 : ℤ) ≤ (m * (2 * beta) : ℕ) + e + beta - noise by omega)
  rw [lower, hr, hx, ← modulus] at value
  have modulus3 : ct3.modulus = 2 * ct.modulus := modulus
  have entries : ∀ i, (LUT ++ LUT).getD i 0 ≤ ct3.modulus := by
    intro i
    rcases Nat.lt_or_ge i (LUT ++ LUT).length with inside | outside
    · have below : ∀ a ∈ LUT ++ LUT, a < ct.modulus := fun a ha => (List.mem_append.mp ha).elim (table.lt a) (table.lt a)
      have := getD_lt below inside
      omega
    · rw [List.getD_eq_default _ _ outside]
      exact Nat.zero_le _
  obtain ⟨ct4, noise', run', reduced', modulus', small', value'⟩ := foldTable_ok (w := w) (modulus3 ▸ boots) reduced
    (by rw [modulus3]; omega) entries (by omega) value
  obtain ⟨ct5, changed, reduced5, modulus5, value5⟩ := LWE.changeModulus_of_dvd s reduced'
    (show ct.modulus ∣ ct4.modulus by rw [modulus', modulus3]; exact dvd_mul_left _ _) other (by omega) roomSingle (by rw [modulus', modulus3]; omega)
  have found : (LUT ++ LUT).getD x 0 = LUT.getD (m * (2 * beta)) 0 := by
    rw [List.getD_append _ _ _ _ (by rw [table.length]; omega)]
    exact table.getD_block (by omega) (by omega) (by rw [Nat.succ_mul]; omega)
  rw [modulus3] at run' value'
  rw [if_pos (by omega), found] at value'
  refine ⟨ct5, noise', ?_, reduced5, modulus5, small',
    value5.trans (value'.of_dvd (by push_cast; exact dvd_mul_left _ _))⟩
  have relabelled : LWE.relabelModulus w (2 * ct.modulus) (LWE.copy ct) = .ok ct1 := by
    rw [LWE.relabelModulus, setModulus, if_neg roomDouble]
    rfl
  rw [evalFunc, kind]
  dsimp only [bind, Except.bind]
  rw [if_neg (by norm_num), if_pos rfl, if_neg (by omega), double, relabelled]
  dsimp only
  rw [show ct.modulus >>> 1 = p * beta by rw [Nat.shiftRight_eq_div_pow, size, halves]; omega, run]
  dsimp only
  rw [run']
  exact changed

end Paths

/-- With one message the first step may end on either half, and the value keeps its sign on one of them only. -/
theorem evalFunc_single {e : ℤ} (boots : BootstrapsTo bootstrapFunc s beta ct.modulus) (h : LWE.Reduced ct)
    (word : 2 * ct.modulus ≤ 2 ^ w.bits) (table : BlockTable LUT ct.modulus (2 * beta)) (he : 2 * |e| < beta)
    (held : LWE.phase s ct ≡ e [ZMOD ct.modulus]) (size : ct.modulus = 2 * beta)
    (kind : checkInputFunction w LUT ct.modulus = .ok 1) :
    ∃ ct', ∃ noise : ℤ, evalFunc w N bootstrapFunc ct LUT beta = .ok ct' ∧ ct'.modulus = ct.modulus ∧ 2 * |noise| < beta ∧
      (LWE.phase s ct' ≡ LUT.getD 0 0 + noise [ZMOD ct.modulus] ∨
        ct.modulus ≠ 4 ∧ LWE.phase s ct' ≡ -LUT.getD 0 0 + noise [ZMOD ct.modulus]) := by
  obtain ⟨r, hr, place, room⟩ := exists_place (p := 1) (m := 0) (by omega) one_pos he
    (show LWE.phase s ct ≡ (0 * (2 * beta) : ℕ) + e [ZMOD ct.modulus] by simpa using held)
  have bounds := abs_lt.mp (show |e| < (beta : ℤ) by have := abs_nonneg e; omega)
  have quarter : ct.modulus >>> 2 < ct.modulus := by
    rw [Nat.shiftRight_eq_div_pow]
    exact Nat.div_lt_self (by omega) (by norm_num)
  obtain ⟨ct2, noise, run, reduced, modulus, small, value⟩ := toLowerHalf_ok boots h word (by omega) quarter
    (show r < ct.modulus by omega) place
  obtain ⟨x, hx⟩ := Int.eq_ofNat_of_zero_le (Int.emod_nonneg (LWE.phase s ct2) (show (ct.modulus : ℤ) ≠ 0 by omega))
  have below := Int.emod_lt_of_pos (LWE.phase s ct2) (show (0 : ℤ) < ct.modulus by omega)
  have there : LWE.phase s ct2 ≡ x [ZMOD ct2.modulus] := by
    rw [modulus, ← hx]
    exact (Int.mod_modEq _ _).symm
  obtain ⟨ct', noise', run', -, modulus', small', value'⟩ := foldTable_ok (w := w) (modulus ▸ boots) reduced (by rw [modulus]; exact word)
    (fun i => by rw [modulus]; exact (table.getD_lt (by omega) i).le) (by omega) there
  have entry : ∀ i < ct.modulus, LUT.getD i 0 = LUT.getD 0 0 := by
    intro i hi
    have same := table.getD_block (m := 0) hi (by omega) (by omega)
    rwa [zero_mul] at same
  rw [modulus] at run' modulus' value'
  refine ⟨ct', noise', ?_, modulus', small', ?_⟩
  · rw [evalFunc, kind]
    dsimp only [bind, Except.bind]
    rw [if_neg one_ne_zero, if_neg (by norm_num), run]
    exact run'
  · by_cases lower : x < ct.modulus / 2
    · rw [if_pos lower, entry x (by omega)] at value'
      exact .inl value'
    · rw [if_neg lower, entry _ (by omega)] at value'
      refine .inr ⟨?_, value'⟩
      -- modulo four nothing is noisy, and the first step ends at zero
      intro four
      have quiet : e = 0 := abs_eq_zero.mp (le_antisymm (by omega) (abs_nonneg e))
      have middle : r = 2 := by omega
      have silent : noise = 0 := abs_eq_zero.mp (le_antisymm (by omega) (abs_nonneg noise))
      rw [middle, silent, four] at value
      have start : LWE.phase s ct2 ≡ 0 [ZMOD 4] := by
        refine value.trans ?_
        have sign : halfSign w 2 4 4 = 1 := rfl
        rw [sign]
        decide
      rw [four] at hx lower
      have zero : LWE.phase s ct2 % 4 = 0 := start
      have : (x : ℤ) = 0 := hx.symm.trans zero
      omega

/-! ### When the function is found -/

/-- For every secret, every `BootstrapFunc` that keeps its promise and every ciphertext of a message with little noise,
`EvalFunc` finds the value of the table or says that the dimension is too small. -/
def EvaluatesTable (w : NativeSize) (N q p : ℕ) (LUT : List ℕ) : Prop :=
  ∀ (n : ℕ) (s : Fin n → ℤ) (bootstrapFunc : LWECiphertext n → Func → ℕ → Except Fault (LWECiphertext n)),
    Bootstraps bootstrapFunc s (q / (2 * p)) → ∀ (ct : LWECiphertext n) (m : ℕ) (e : ℤ), LWE.Reduced ct → ct.modulus = q →
    m < p → 2 * |e| < (q / (2 * p) : ℕ) → LWE.phase s ct ≡ (m * (q / p) : ℕ) + e [ZMOD q] →
    (evalFunc w N bootstrapFunc ct LUT (q / (2 * p)) = .error dimensionTooSmall ∧ N < q) ∨
      Finds s q (q / (2 * p)) (LUT.getD (m * (q / p)) 0) (evalFunc w N bootstrapFunc ct LUT (q / (2 * p)))

/-- A bootstrapping that knows the secret, with the noise that is asked for. -/
def openBootstrap {n : ℕ} (s : Fin n → ℤ) (noise : LWECiphertext n → ℤ) (ct : LWECiphertext n) (f : Func) (fmod : ℕ) :
    Except Fault (LWECiphertext n) :=
  .ok { a := fun _ => 0
        b := ((f (LWE.phase s ct % ct.modulus).toNat ct.modulus fmod + noise ct) % fmod).toNat
        modulus := fmod }

theorem openBootstrap_bootstraps {noise : LWECiphertext n → ℤ} (small : ∀ ct, 2 * |noise ct| < beta) :
    Bootstraps (openBootstrap s noise) s beta := by
  intro ct f fmod _ pos _
  have nonneg := Int.emod_nonneg (f (LWE.phase s ct % ct.modulus).toNat ct.modulus fmod + noise ct)
    (show (fmod : ℤ) ≠ 0 by omega)
  have below := Int.emod_lt_of_pos (f (LWE.phase s ct % ct.modulus).toNat ct.modulus fmod + noise ct)
    (show (0 : ℤ) < fmod by omega)
  refine ⟨_, noise ct, rfl, ⟨fun _ => pos, ?_⟩, rfl, small ct, ?_⟩
  · dsimp only
    omega
  · rw [LWE.phase]
    simp only [Nat.cast_zero, zero_mul, Finset.sum_const_zero, sub_zero]
    rw [Int.toNat_of_nonneg nonneg]
    exact Int.mod_modEq _ _
/-- The table of a single message that the noise can bring to the opposite of its value. -/
structure Breaks (q p : ℕ) (LUT : List ℕ) : Prop where
  single : p = 1
  large : q ≠ 4
  low : q < 8 * (LUT.getD 0 0 % (q / 2))
  high : 8 * (LUT.getD 0 0 % (q / 2)) < 3 * q

/-- What `checkInputFunction` answers, with what is known of the table then. -/
theorem exists_kind {q : ℕ} (long : 2 ≤ LUT.length) (lt : ∀ a ∈ LUT, a < q) (word : q < 2 ^ w.bits) :
    (checkInputFunction w LUT q = .ok 0 ∧ ChangesSign LUT q) ∨ (checkInputFunction w LUT q = .ok 1 ∧ Repeats LUT) ∨
      (checkInputFunction w LUT q = .ok 2 ∧ ¬ (q = 2 ∧ LUT.getD 0 0 = LUT.getD 1 0 ∧ LUT.length = 2)) := by
  rw [checkInputFunction_eq long]
  have opposite := all_opposite_iff lt word
  by_cases all : ∀ i < LUT.length / 2, LUT.getD i 0 = sub w q (LUT.getD (LUT.length / 2 + i) 0)
  · rw [if_pos all]
    exact .inl ⟨rfl, (opposite.mp all).1⟩
  · rw [if_neg all]
    by_cases first : LUT.getD 0 0 = sub w q (LUT.getD (LUT.length / 2) 0)
    · rw [if_pos first]
      refine .inr (.inr ⟨rfl, ?_⟩)
      rintro ⟨-, -, short⟩
      refine all fun i hi => ?_
      obtain rfl : i = 0 := by omega
      exact first
    · rw [if_neg first]
      by_cases repeats : Repeats LUT
      · rw [if_pos repeats]
        exact .inr (.inl ⟨rfl, repeats⟩)
      · rw [if_neg repeats]
        refine .inr (.inr ⟨rfl, ?_⟩)
        rintro ⟨-, same, short⟩
        refine repeats fun i hi => ?_
        obtain rfl : i = 0 := by omega
        rw [short]
        exact same

theorem evaluatesTable_of_not_breaks {a b : ℕ} (table : BlockTable LUT (2 ^ a) (2 ^ a / 2 ^ b))
    (fits : ¬ modulusTooLarge w (2 ^ a)) (room : ¬ modulusTooLarge w (2 * N)) (fine : ¬ Breaks (2 ^ a) (2 ^ b) LUT) :
    EvaluatesTable w N (2 ^ a) (2 ^ b) LUT := by
  intro n s bootstrapFunc boots ct m e h modulus hm he held
  have word := lt_of_not_tooLarge fits
  -- the blocks are twice as long as `beta`, which is not zero
  have nonneg := abs_nonneg e
  obtain ⟨beta, some_beta⟩ : ∃ beta, beta = 2 ^ a / (2 * 2 ^ b) := ⟨_, rfl⟩
  rw [← some_beta] at boots he ⊢
  have le : b + 1 ≤ a := by
    by_contra small
    rw [Nat.div_eq_of_lt (by rw [← pow_succ']; exact Nat.pow_lt_pow_right (by norm_num) (by omega))] at some_beta
    omega
  obtain ⟨t, rfl⟩ := Nat.exists_eq_add_of_le le
  have beta_eq : beta = 2 ^ t := by
    rw [some_beta, ← pow_succ', pow_add, Nat.mul_div_cancel_left _ (by positivity)]
  have step : 2 ^ (b + 1 + t) / 2 ^ b = 2 * beta := by
    rw [beta_eq, show 2 ^ (b + 1 + t) = 2 ^ b * (2 * 2 ^ t) by ring, Nat.mul_div_cancel_left _ (by positivity)]
  have size : 2 ^ (b + 1 + t) = 2 ^ b * (2 * beta) := by
    rw [beta_eq]
    ring
  rw [step] at table held ⊢
  generalize 2 ^ (b + 1 + t) = q at *
  subst modulus
  have even : ct.modulus = 2 * (2 ^ b * beta) := by rw [size]; ring
  have pos : 0 < 2 ^ b * beta := by
    have := h.b_lt
    omega
  rcases exists_kind (w := w) (by rw [table.length]; omega) table.lt (by omega) with ⟨kind, changes⟩ | ⟨kind, repeats⟩ | ⟨kind, odd⟩
  · exact .inr (evalFunc_changing h (by omega) table hm he held (boots.to _) size kind changes).finds
  · right
    rcases Nat.eq_zero_or_pos b with rfl | several
    · obtain rfl : m = 0 := by omega
      rw [pow_zero, one_mul] at size
      obtain ⟨ct', noise, run, modulus, small, value⟩ := evalFunc_single (N := N) (boots.to _) h (by omega) table he
        (by simpa using held) size kind
      have bounds := abs_lt.mp (show |2 * noise| < (beta : ℤ) by rw [abs_mul, abs_two]; exact small)
      rw [zero_mul]
      rcases value with kept | ⟨large, negated⟩
      · exact ⟨ct', noise, run, modulus, by have := abs_nonneg noise; omega, kept⟩
      · have entry := table.getD_lt (by omega) 0
        have half : ct.modulus / 2 = beta := by omega
        have parts := Nat.mod_add_div (LUT.getD 0 0) beta
        have quotient : LUT.getD 0 0 / beta < 2 := Nat.div_lt_of_lt_mul (by omega)
        -- the double of the value is that of its remainder
        obtain ⟨u, hu⟩ : ∃ u : ℤ, 2 * (LUT.getD 0 0 : ℤ) = 2 * (LUT.getD 0 0 % beta : ℕ) + ct.modulus * u := by
          refine ⟨(LUT.getD 0 0 / beta : ℕ), ?_⟩
          rw [size]
          push_cast
          have cast : ((LUT.getD 0 0 % beta : ℕ) : ℤ) + beta * (LUT.getD 0 0 / beta : ℕ) = LUT.getD 0 0 := by
            exact_mod_cast parts
          push_cast at cast
          linarith
        have below : LUT.getD 0 0 % beta < beta := Nat.mod_lt _ (by omega)
        by_cases near : 8 * (LUT.getD 0 0 % beta) ≤ ct.modulus
        · refine ⟨ct', noise - 2 * (LUT.getD 0 0 % beta : ℕ), run, modulus, ?_, ?_⟩
          · exact abs_lt.mpr ⟨by omega, by omega⟩
          · exact negated.trans (Int.modEq_iff_dvd.mpr ⟨u, by linarith⟩)
        · have far : 3 * ct.modulus ≤ 8 * (LUT.getD 0 0 % beta) := by
            by_contra inside
            exact fine ⟨pow_zero 2, large, by rw [half]; omega, by rw [half]; omega⟩
          refine ⟨ct', noise - 2 * (LUT.getD 0 0 % beta : ℕ) + ct.modulus, run, modulus, ?_, ?_⟩
          · exact abs_lt.mpr ⟨by omega, by omega⟩
          · exact negated.trans (Int.modEq_iff_dvd.mpr ⟨u + 1, by linarith⟩)
    · obtain ⟨b', rfl⟩ := Nat.exists_eq_add_of_lt several
      exact (evalFunc_repeating h (by omega) table hm he held (boots.to _) (show 2 ^ (0 + b' + 1) = 2 * 2 ^ b' by ring) size kind
        repeats).finds
  · rcases Nat.lt_or_ge N ct.modulus with short | long
    · left
      refine ⟨?_, short⟩
      rw [evalFunc, kind]
      dsimp only [bind, Except.bind]
      rw [if_neg two_ne_zero, if_pos rfl, if_pos short]
      rfl
    · refine .inr (evalFunc_doubled h (by omega) table hm he held (boots.to _) size kind ?_ long room).finds
      intro two
      refine odd ⟨two, ?_, by rw [table.length, two]⟩
      have unit : beta = 1 := Nat.eq_one_of_mul_eq_one_left (show 2 ^ b * beta = 1 by omega)
      have same := table.constant 1 (by omega)
      rw [unit] at same
      exact same.symm

/-! ### A table that is not found -/

theorem phase_zero {s : Fin 0 → ℤ} (ct : LWECiphertext 0) : LWE.phase s ct = ct.b := by
  simp [LWE.phase]

theorem openBootstrap_zero {s : Fin 0 → ℤ} {noise : LWECiphertext 0 → ℤ} {ct : LWECiphertext 0} (below : ct.b < ct.modulus)
    (f : Func) (fmod : ℕ) : openBootstrap s noise ct f fmod =
      .ok ⟨fun _ => 0, ((f ct.b ct.modulus fmod + noise ct) % fmod).toNat, fmod, 4⟩ := by
  rw [openBootstrap, phase_zero, toNat_emod below (Int.ModEq.refl _)]

section Broken
variable {u : ℕ} (table : BlockTable LUT (8 * u) (8 * u)) (word : 2 * (8 * u) ≤ 2 ^ w.bits)
  (low : u < LUT.getD 0 0 % (4 * u)) (high : LUT.getD 0 0 % (4 * u) < 3 * u)
include table word low high

theorem broken_kind : checkInputFunction w LUT (8 * u) = .ok 1 := by
  have entry : ∀ i < 8 * u, LUT.getD i 0 = LUT.getD 0 0 := by
    intro i hi
    have same := table.getD_block (m := 0) hi (by omega) (by omega)
    rwa [zero_mul] at same
  have half : LUT.length / 2 = 4 * u := by rw [table.length]; omega
  have twice : (LUT.getD 0 0 + LUT.getD 0 0) % (8 * u) ≠ 0 := by
    intro zero
    have divides : 4 * u ∣ LUT.getD 0 0 := by
      obtain ⟨t, ht⟩ := Nat.dvd_of_mod_eq_zero zero
      exact ⟨t, by nlinarith⟩
    rw [Nat.mod_eq_zero_of_dvd divides] at low
    omega
  have first : ¬ LUT.getD 0 0 = sub w (8 * u) (LUT.getD (LUT.length / 2) 0) := by
    rw [half, entry (4 * u) (by omega), eq_sub_iff (table.getD_lt (by omega) 0) (table.getD_lt (by omega) 0) (by omega)]
    exact fun both => twice both.1
  have repeats : Repeats LUT := by
    intro i hi
    rw [half] at hi ⊢
    rw [entry i (by omega), entry (4 * u + i) (by omega)]
  rw [checkInputFunction_eq (by rw [table.length]; omega), if_neg fun all => first (all 0 (by omega)), if_neg first,
    if_pos repeats]

omit table word low high
/-- The noises that bring the value to the opposite of itself, and then as far from it as can be. -/
def badNoise (u d : ℕ) (ct : LWECiphertext 0) : ℤ := if ct.b = 4 * u then 1 else 2 * d - 4 * u

/-- A ciphertext without a mask. -/
def plain (u b : ℕ) : LWECiphertext 0 := ⟨fun _ => 0, b, 8 * u, 4⟩

include word

theorem plain_add {b cnst : ℕ} (hb : b < 8 * u) (hc : cnst < 8 * u) :
    LWE.evalAddConstEq w (plain u b) cnst = plain u ((b + cnst) % (8 * u)) := by
  rw [LWE.evalAddConstEq, plain, modAddFast_eq hb hc word]
  rfl

theorem plain_sub {b cnst : ℕ} (pos : 0 < u) (hb : b < 8 * u) (hc : cnst < 8 * u) :
    LWE.evalSubConstEq w (plain u b) cnst = plain u ((b + 8 * u - cnst) % (8 * u)) := by
  rw [LWE.evalSubConstEq, plain, modSubFast_eq hb hc (by omega)]
  rfl

theorem plain_difference {b b' : ℕ} (pos : 0 < u) (hb : b < 8 * u) (hb' : b' < 8 * u) :
    LWE.evalSubEq2 w (plain u b) (plain u b') = .ok (plain u ((b + 8 * u - b') % (8 * u))) := by
  rw [LWE.evalSubEq2, if_neg (show ¬ (plain u b).modulus ≠ (plain u b').modulus from not_not.mpr rfl)]
  refine congrArg Except.ok (LWECiphertext.ext (funext fun i => i.elim0) ?_ rfl rfl)
  exact modSubFast_eq hb hb' (show 8 * u ≤ 2 ^ w.bits by omega)

include table low high

theorem broken_run (s : Fin 0 → ℤ) :
    evalFunc w N (openBootstrap s (badNoise u (LUT.getD 0 0 % (4 * u)))) (plain u 0) LUT (4 * u) =
      .ok (plain u (((8 * u - LUT.getD 0 0 : ℤ) + (2 * (LUT.getD 0 0 % (4 * u) : ℕ) - 4 * u)) % (8 * u : ℕ)).toNat) := by
  have pos : 0 < u := by omega
  have entry : LUT.getD (4 * u - 1) 0 = LUT.getD 0 0 := by
    have same := table.getD_block (x := 4 * u - 1) (m := 0) (by omega) (by omega) (by omega)
    rwa [zero_mul] at same
  have le := table.getD_lt (by omega) 0
  have shifted := plain_add (w := w) (b := 0) word (by omega) (show 4 * u < 8 * u by omega)
  rw [zero_add, Nat.mod_eq_of_lt (by omega)] at shifted
  have sign : halfSign w (4 * u) (8 * u) (8 * u) = 2 * u := by
    rw [halfSign, if_neg (by rw [Nat.shiftRight_eq_div_pow]; omega), Nat.shiftRight_eq_div_pow]
    omega
  have first : openBootstrap s (badNoise u (LUT.getD 0 0 % (4 * u))) (plain u (4 * u)) (halfSign w) (8 * u) =
      .ok (plain u (2 * u + 1)) := by
    rw [openBootstrap_zero (show 4 * u < 8 * u by omega)]
    have noise : badNoise u (LUT.getD 0 0 % (4 * u)) (plain u (4 * u)) = 1 := if_pos rfl
    have value : (((halfSign w (4 * u) (8 * u) (8 * u) : ℤ) + 1) % (8 * u : ℕ)).toNat = 2 * u + 1 := by
      rw [sign]
      exact toNat_emod (by omega) (by push_cast; exact Int.ModEq.refl _)
    exact congrArg Except.ok (congrArg (plain u) (by rw [noise]; exact value))
  have turned : foldTable w LUT (8 * u - 1) (8 * u) (8 * u) = 8 * u - LUT.getD 0 0 := by
    rw [foldTable, if_neg (by rw [Nat.shiftRight_eq_div_pow]; omega), show 8 * u - 1 - 8 * u / 2 = 4 * u - 1 by omega, entry,
      sub_of_le le.le (by omega)]
  have second : openBootstrap s (badNoise u (LUT.getD 0 0 % (4 * u))) (plain u (8 * u - 1)) (foldTable w LUT) (8 * u) =
      .ok (plain u (((8 * u - LUT.getD 0 0 : ℤ) + (2 * (LUT.getD 0 0 % (4 * u) : ℕ) - 4 * u)) % (8 * u : ℕ)).toNat) := by
    rw [openBootstrap_zero (show 8 * u - 1 < 8 * u by omega)]
    have noise : badNoise u (LUT.getD 0 0 % (4 * u)) (plain u (8 * u - 1)) = 2 * (LUT.getD 0 0 % (4 * u) : ℕ) - 4 * u :=
      if_neg (show ¬ 8 * u - 1 = 4 * u by omega)
    refine congrArg Except.ok (congrArg (plain u) ?_)
    rw [noise]
    show (((foldTable w LUT (8 * u - 1) (8 * u) (8 * u) : ℕ) + _ : ℤ) % _).toNat = _
    rw [turned, Nat.cast_sub le.le]
    push_cast
    rfl
  rw [evalFunc, show (plain u 0).modulus = 8 * u from rfl, broken_kind table word low high]
  dsimp only [bind, Except.bind]
  rw [if_neg one_ne_zero, if_neg (by norm_num), toLowerHalf, show LWE.copy (plain u 0) = plain u 0 from rfl, shifted,
    show (plain u 0).modulus = 8 * u from rfl, first]
  dsimp only [bind, Except.bind]
  rw [plain_difference word pos (by omega) (by omega)]
  dsimp only
  rw [show (0 + 8 * u - (2 * u + 1)) % (8 * u) = 6 * u - 1 by rw [Nat.mod_eq_of_lt (by omega)]; omega,
    plain_add word (by omega) (by omega),
    show (6 * u - 1 + 4 * u) % (8 * u) = 2 * u - 1 by
      rw [show 6 * u - 1 + 4 * u = 2 * u - 1 + 8 * u by omega, Nat.add_mod_right, Nat.mod_eq_of_lt (by omega)],
    show (8 * u) >>> 2 = 2 * u by rw [Nat.shiftRight_eq_div_pow]; omega, plain_sub word pos (by omega) (by omega),
    show (2 * u - 1 + 8 * u - 2 * u) % (8 * u) = 8 * u - 1 by rw [Nat.mod_eq_of_lt (by omega)]; omega]
  exact second

end Broken

theorem not_evaluatesTable {u : ℕ} (table : BlockTable LUT (8 * u) (8 * u)) (word : 2 * (8 * u) ≤ 2 ^ w.bits)
    (low : u < LUT.getD 0 0 % (4 * u)) (high : LUT.getD 0 0 % (4 * u) < 3 * u) : ¬ EvaluatesTable w N (8 * u) 1 LUT := by
  intro evaluates
  have pos : 0 < u := by omega
  have eight : 8 * u / (2 * 1) = 4 * u := by omega
  let s : Fin 0 → ℤ := fun _ => 0
  have boots : Bootstraps (openBootstrap s (badNoise u (LUT.getD 0 0 % (4 * u)))) s (4 * u) := openBootstrap_bootstraps (by
    intro ct
    rw [badNoise]
    split
    · rw [abs_one]
      omega
    · rw [← abs_two, ← abs_mul, abs_two]
      exact abs_lt.mpr ⟨by omega, by omega⟩)
  have found := evaluates 0 s _ (by rw [eight]; exact boots) (plain u 0) 0 0 ⟨fun i => i.elim0, show 0 < 8 * u by omega⟩ rfl
    one_pos (by rw [eight, abs_zero]; omega) (by rw [phase_zero]; simp [plain])
  rw [eight, broken_run table word low high] at found
  rcases found with ⟨impossible, -⟩ | ⟨ct', noise, run, -, small, value⟩
  · cases impossible
  · obtain rfl := Except.ok.inj run
    rw [phase_zero, zero_mul] at value
    have nonneg := Int.emod_nonneg ((8 * u - LUT.getD 0 0 : ℤ) + (2 * (LUT.getD 0 0 % (4 * u) : ℕ) - 4 * u))
      (show ((8 * u : ℕ) : ℤ) ≠ 0 by omega)
    simp only [plain] at value
    rw [Int.toNat_of_nonneg nonneg] at value
    have parts := Nat.mod_add_div (LUT.getD 0 0) (4 * u)
    obtain ⟨t, ht⟩ := ((Int.mod_modEq _ _).symm.trans value).dvd
    have bounds := abs_lt.mp small
    obtain ⟨v, hv⟩ : ∃ v : ℤ, noise + 4 * u = 8 * u * v := by
      generalize LUT.getD 0 0 % (4 * u) = d at parts ht
      generalize LUT.getD 0 0 / (4 * u) = k at parts
      have cast : (d : ℤ) + 4 * u * k = LUT.getD 0 0 := by exact_mod_cast parts
      rw [Nat.cast_mul, Nat.cast_ofNat] at ht
      exact ⟨t + 1 - k, by linarith⟩
    push_cast at bounds
    have eight_pos : (0 : ℤ) < 8 * u := by omega
    have above : 0 < v := (mul_pos_iff_of_pos_left eight_pos).mp (by rw [← hv]; linarith [bounds.1])
    have turn := le_mul_of_one_le_right eight_pos.le above
    linarith [bounds.2]

/-- `EvalFunc` finds the values of every table, but for a single message with a value that can be brought to its
opposite. -/
theorem evaluatesTable_iff {a b : ℕ} (table : BlockTable LUT (2 ^ a) (2 ^ a / 2 ^ b)) (fits : ¬ modulusTooLarge w (2 ^ a))
    (room : ¬ modulusTooLarge w (2 * N)) : EvaluatesTable w N (2 ^ a) (2 ^ b) LUT ↔ ¬ Breaks (2 ^ a) (2 ^ b) LUT := by
  refine ⟨?_, evaluatesTable_of_not_breaks table fits room⟩
  rintro evaluates ⟨single, large, low, high⟩
  have word := lt_of_not_tooLarge fits
  have three : 3 ≤ a := by
    by_contra small
    have lt := Nat.mod_le (LUT.getD 0 0) (2 ^ a / 2)
    have entry := table.getD_lt (by positivity) 0
    interval_cases a
    · omega
    · rw [show 2 ^ 1 / 2 = 1 from rfl, Nat.mod_one] at low
      omega
    · exact large rfl
  obtain ⟨t, rfl⟩ := Nat.exists_eq_add_of_le three
  have eight : 2 ^ (3 + t) = 8 * 2 ^ t := by ring
  rw [single] at evaluates table
  rw [eight] at evaluates table low high word
  rw [show 8 * 2 ^ t / 2 = 4 * 2 ^ t by omega] at low high
  rw [Nat.div_one] at table
  exact not_evaluatesTable table (by omega) (by omega) (by omega) evaluates

theorem arbitrary_table_evaluates :
    EvaluatesTable .w64 512 (2 ^ 4) (2 ^ 2) [1, 1, 1, 1, 5, 5, 5, 5, 3, 3, 3, 3, 9, 9, 9, 9] :=
  (evaluatesTable_iff (a := 4) (b := 2) ⟨rfl, by decide, by decide⟩ (by decide) (by decide)).mpr
    fun breaks => absurd breaks.single (by norm_num)

/-- A single message, the table that is two everywhere, and noise of one. -/
theorem single_message_not_found :
    BlockTable [2, 2, 2, 2, 2, 2, 2, 2] 8 8 ∧ ¬ EvaluatesTable .w64 512 8 1 [2, 2, 2, 2, 2, 2, 2, 2] := by
  have table : BlockTable [2, 2, 2, 2, 2, 2, 2, 2] (8 * 1) (8 * 1) := ⟨rfl, by decide, by decide⟩
  exact ⟨table, not_evaluatesTable table (by decide) (by decide) (by decide)⟩

end BinFHEScheme
end MultiKeyFHE
