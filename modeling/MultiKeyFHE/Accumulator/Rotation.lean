import MultiKeyFHE.Accumulator.HybridProduct
import MultiKeyFHE.Library.Run

/-!
# Blind rotation steps

What the accumulators of `mk-acc-xzw.cpp` and `mk-acc-xzw_B.cpp` share: linear combinations of keys, the
assumption on the hybrid product, and the effect of one update on the phase.
-/

namespace MultiKeyFHE
open Negacyclic NegPoly NativeInteger UniEncCryptoParams

namespace UniEncAccumulator
variable {w : NativeSize} {p : UniEncParams w}

instance : Add (EvalKey p) := ⟨fun a b => ⟨fun i => a.d i + b.d i, fun i => a.f i + b.f i⟩⟩
instance : SMul (Poly p) (EvalKey p) := ⟨fun c a => ⟨fun i => c * a.d i, fun i => c * a.f i⟩⟩

theorem EvalKey.add_d (a b : EvalKey p) (i : Digit p) : (a + b).d i = a.d i + b.d i := rfl
theorem EvalKey.add_f (a b : EvalKey p) (i : Digit p) : (a + b).f i = a.f i + b.f i := rfl
theorem EvalKey.smul_d (c : Poly p) (a : EvalKey p) (i : Digit p) : (c • a).d i = c * a.d i := rfl
theorem EvalKey.smul_f (c : Poly p) (a : EvalKey p) (i : Digit p) : (c • a).f i = c * a.f i := rfl

/-- A key that is a linear combination of encryptions, with the same combination of their messages. -/
inductive Combination (enc : EvalKey p → Poly p → Prop) : EvalKey p → Poly p → Prop where
  | base {key : EvalKey p} {m : Poly p} : enc key m → Combination enc key m
  | add {a b : EvalKey p} {x y : Poly p} : Combination enc a x → Combination enc b y →
      Combination enc (a + b) (x + y)
  | smul {a : EvalKey p} {x : Poly p} (c : Poly p) : Combination enc a x → Combination enc (c • a) (c * x)

variable (p)

abbrev Product := EvalKey p → Fin p.k → Acc p → Acc p

/-- The product that `EvalAcc` calls. The accumulators below take it as a parameter. -/
def codeProduct (Pkey : Fin p.k → Digit p → Poly p) : Product p := fun key index acc =>
  hbProd p key index Pkey acc

variable {p}

/-- The product with `key` for party `u` multiplies every phase by `m`, up to `δ`. -/
def MultipliesBy (hb : Product p) (sk : Acc p) (δ : ℝ) (u : Fin p.k) (key : EvalKey p) (m : Poly p) : Prop :=
  ∀ acc, Bounded δ (phase p sk (hb key u acc) - m * phase p sk acc)

def initial (T : Poly p) : Acc p := fun u => if u = 0 then T else 0

theorem phase_initial (sk : Acc p) (T : Poly p) : phase p sk (initial T) = T * sk 0 := by
  rw [phase, Finset.sum_eq_single 0]
  · rw [initial, if_pos rfl]
  · intro u _ hu
    rw [initial, if_neg hu, zero_mul]
  · simp

theorem phase_add (sk a b : Acc p) : phase p sk (fun u => a u + b u) = phase p sk a + phase p sk b := by
  simp only [phase, add_mul, Finset.sum_add_distrib]

theorem phase_mul (sk a : Acc p) (c : Poly p) : phase p sk (fun u => a u * c) = phase p sk a * c := by
  rw [phase, phase, Finset.sum_mul]
  refine Finset.sum_congr rfl fun u _ => ?_
  ring

/-- `ct * 2 * N / mod` in native words. -/
def scaledIndex (w : NativeSize) (N mod x : ℕ) : ℕ := mul w (mul w x 2) N / mod

theorem scaledIndex_eq {N mod x : ℕ} (h : x * (2 * N) < 2 ^ w.bits) (hN : 0 < N) :
    scaledIndex w N mod x = x * (2 * N) / mod := by
  have h2 : x * 2 < 2 ^ w.bits := by
    calc x * 2 ≤ x * 2 * N := Nat.le_mul_of_pos_right _ hN
      _ = x * (2 * N) := by ring
      _ < _ := h
  rw [scaledIndex, NativeInteger.mul, NativeInteger.mul, wrap_of_lt h2, wrap_of_lt (by rw [mul_assoc]; exact h),
    mul_assoc]

theorem scaledIndex_lt {N mod x : ℕ} (hx : x < mod) (h : x * (2 * N) < 2 ^ w.bits) (hN : 0 < N) :
    scaledIndex w N mod x < 2 * N := by
  rw [scaledIndex_eq h hN]
  refine Nat.div_lt_of_lt_mul ?_
  exact Nat.mul_lt_mul_of_pos_right hx (by omega)

variable (p)

/-- `GetMonomial(index == MInt ? 0 : index)` for a native integer converted to 32 bits. -/
def monomialAt (c : ℕ) : Except Fault (Poly p) :=
  let index := c % 2 ^ 32
  p.getMonomial (if index = 2 * p.N then 0 else index)

def indexNeg (c : ℕ) : ℕ := modSubFast w 0 c (2 * p.N)

variable {p}

theorem monomialAt_eq {c : ℕ} (hc : c < 2 * p.N) : monomialAt p c = .ok (xpow c - 1) := by
  have h32 := p.two_mul_N_lt
  rw [monomialAt, Nat.mod_eq_of_lt (by omega), if_neg (by omega), p.getMonomial_eq hc, xpow_natCast]

theorem monomialAt_self {c : ℕ} (hc : c = 2 * p.N) : monomialAt p c = .ok (xpow c - 1) := by
  have h32 := p.two_mul_N_lt
  have hN : 0 < p.N := Nat.pos_of_ne_zero (NeZero.ne p.N)
  rw [monomialAt, hc, Nat.mod_eq_of_lt (by omega), if_pos rfl, p.getMonomial_eq (by omega), xpow_natCast, mono_two_mul,
    mono_zero]

theorem monomialAt_indexNeg {c : ℕ} (hc : c < 2 * p.N) :
    monomialAt p (indexNeg p c) = .ok (xpow (-c) - 1) := by
  have hN : 0 < p.N := Nat.pos_of_ne_zero (NeZero.ne p.N)
  have hw : 2 * p.N ≤ 2 ^ w.bits := by
    have h32 := p.two_mul_N_lt
    have := w.two_pow_32_le
    omega
  have hlt : indexNeg p c < 2 * p.N := modSubFast_lt (by omega) hc hw
  rw [monomialAt_eq hlt]
  have h := modSubFast_cast (w := w) (show 0 < 2 * p.N by omega) hc hw
  rw [Nat.cast_zero, zero_sub] at h
  rw [indexNeg, xpow_congr (by exact_mod_cast h)]

/-! ### One update of the phase -/

theorem rotation_error {δ ε : ℝ} {now next target : Poly p} {z : ℤ} (small : Bounded ε (now - target))
    (step : Bounded δ (next - now * xpow z)) : Bounded (ε + δ) (next - target * xpow z) := by
  have split : next - target * xpow z = (now - target) * xpow z + (next - now * xpow z) := by ring
  rw [split]
  exact (small.mul_xpow z).add step

theorem update_phase {hb : Product p} {sk : Acc p} {δ : ℝ} {u : Fin p.k} {key : EvalKey p} {m : Poly p}
    (mult : MultipliesBy hb sk δ u key m) (acc : Acc p) {c : Poly p} {z : ℤ}
    (rotates : 1 + m * c = xpow z) :
    Bounded δ (phase p sk (fun v => acc v + hb key u (fun v => acc v * c) v) - phase p sk acc * xpow z) := by
  have h := mult fun v => acc v * c
  rw [phase_mul] at h
  rw [phase_add, ← rotates]
  have split : phase p sk acc + phase p sk (hb key u fun v => acc v * c) - phase p sk acc * (1 + m * c) =
      phase p sk (hb key u fun v => acc v * c) - m * (phase p sk acc * c) := by ring
  rw [split]
  exact h

theorem first_phase {hb : Product p} {sk : Acc p} {δ : ℝ} {key : EvalKey p} {m inv : Poly p}
    (mult : MultipliesBy hb sk δ 0 key (m * inv)) (inverse : sk 0 * inv = 1) (T : Poly p) {z : ℤ}
    (rotates : m = xpow z) : Bounded δ (phase p sk (hb key 0 (initial T)) - T * xpow z) := by
  have h := mult (initial T)
  have same : m * inv * phase p sk (initial T) = T * xpow z := by
    rw [phase_initial, ← rotates]
    linear_combination m * T * inverse
  rwa [same] at h

theorem eq_zero_of_bounded_zero {a : Poly p} (h : Bounded 0 a) : a = 0 := by
  ext i
  have hi := h i
  have : (a.coeff i).valMinAbs.natAbs = 0 := by exact_mod_cast le_antisymm hi (Nat.cast_nonneg _)
  rw [coeff_zero]
  exact (ZMod.valMinAbs_eq_zero _).mp (Int.natAbs_eq_zero.mp this)

/-! ### An exact product -/

/-- The product that reads the message off row zero, `c` being the inverse of the first gadget power. -/
def exactProduct (c : ZMod p.Q) : Product p := fun key _ acc v => const c * key.d 0 * acc v

theorem phase_exactProduct (c : ZMod p.Q) (sk : Acc p) (key : EvalKey p) (u : Fin p.k) (acc : Acc p) :
    phase p sk (exactProduct c key u acc) = const c * key.d 0 * phase p sk acc := by
  rw [phase, phase, Finset.mul_sum]
  refine Finset.sum_congr rfl fun v _ => ?_
  rw [exactProduct]
  ring

theorem exactProduct_multipliesBy {c : ZMod p.Q} (hc : const c * gd p 0 = 1) (sk : Acc p) (u : Fin p.k)
    {key : EvalKey p} {m : Poly p} (row : key.d 0 = m * gd p 0) :
    MultipliesBy (exactProduct c) sk 0 u key m := by
  intro acc
  have same : const c * key.d 0 * phase p sk acc - m * phase p sk acc = 0 := by
    rw [row]
    linear_combination m * phase p sk acc * hc
  rw [phase_exactProduct, same]
  exact bounded_zero

theorem Combination.row {enc : EvalKey p → Poly p → Prop} {a : Poly p}
    (base : ∀ key m, enc key m → key.d 0 = m * a) {key : EvalKey p} {m : Poly p}
    (h : Combination enc key m) : key.d 0 = m * a := by
  induction h with
  | base h => exact base _ _ h
  | add _ _ ih ih' =>
    rw [EvalKey.add_d, ih, ih']
    ring
  | smul c _ ih =>
    rw [EvalKey.smul_d, ih]
    ring

def zeroDraws : KeyDraws p := .errorFree p 0

theorem slot_zero (psi : ZMod p.Q) (i : ℕ) : NativePoly.slot psi (0 : Poly p) i = 0 := evalAt_zero _

theorem keyGenXZW_zeroDraws (inv : Poly p) (CRS : Digit p → Poly p) (m : ℤ) (i : Digit p) :
    (keyGenXZW p zeroDraws inv CRS m).d i = messageOf m * gd p i := by
  rw [keyGenXZW_d]
  simp only [zeroDraws, KeyDraws.errorFree, slot_zero, zero_add]
  rw [show (const 0 : Poly p) = 0 from by ext j; rw [coeff_const]; split <;> rfl, zero_mul, add_zero]

theorem kdmKeyGenXZW_zeroDraws (inv : Poly p) (CRS : Digit p → Poly p) {m : ℤ} (bit : m = 0 ∨ m = 1)
    (i : Digit p) : (kdmKeyGenXZW p zeroDraws inv CRS m).d i = messageOf m * (gd p i * inv) := by
  simp only [kdmKeyGenXZW, NativePoly.times_eq, zeroDraws, KeyDraws.errorFree, slot_zero]
  rw [show (const 0 : Poly p) = 0 from by ext j; rw [coeff_const]; split <;> rfl, zero_mul, add_zero]
  rcases bit with rfl | rfl <;> simp [messageOf]

end UniEncAccumulator
end MultiKeyFHE
