import MultiKeyFHE.Accumulator.RingGSW
import MultiKeyFHE.Library.Run
import MultiKeyFHE.Library.SignTest
import Mathlib.Data.List.GetD

/-!
# The accumulator over vector NTRU

`RingGSW`'s counterpart `VectorNTRUAccumulatorXZDDF`, with the start of `BootstrapGateCore`. The keys for automorphisms
are made at the positions `i` for the exponents `2N/q * (i + 1) + 1`, and `EvalAcc` looks the exponent `w` up at
`(w - 3) / 2`. The products and the automorphisms themselves are parameters.
-/

namespace MultiKeyFHE
open Negacyclic NegPoly NativeInteger

namespace NbTheory

/-- The loop of `ModInverse`, in `usint` arithmetic. -/
def modInverseLoop (a b x0 x1 : ℕ) : Except Fault ℕ :=
  if a > 1 then
    if b = 0 then .error .divisionByZero
    else modInverseLoop b (a % b) ((x1 + 2 ^ 32 - a / b * x0 % 2 ^ 32) % 2 ^ 32) x0
  else .ok x1
termination_by b
decreasing_by exact Nat.mod_lt _ (by omega)

/-- `ModInverse(usint, usint)`. A negative coefficient stays wrapped. -/
def modInverse (a b : ℕ) : Except Fault ℕ := if b = 1 then .ok 1 else modInverseLoop a b 0 1

section Euclid
variable {M : ℕ} (hM : M ∣ 2 ^ 32)
include hM

theorem cast_word (x : ℕ) : ((x % 2 ^ 32 : ℕ) : ZMod M) = x :=
  (ZMod.natCast_eq_natCast_iff' _ _ _).mpr (Nat.mod_mod_of_dvd x hM)

/-- Modulo a divisor of `2^32` each coefficient gives its remainder, wrapped or not. -/
theorem modInverseLoop_spec {w a b x0 x1 : ℕ} (pos : 0 < a) (coprime : Nat.Coprime a b) (first : (x1 * w : ZMod M) = a)
    (second : (x0 * w : ZMod M) = b) : ∃ x, modInverseLoop a b x0 x1 = .ok x ∧ (x * w : ZMod M) = 1 := by
  induction b using Nat.strong_induction_on generalizing a x0 x1 with
  | _ b ih =>
    rw [modInverseLoop]
    by_cases more : a > 1
    · have hb : b ≠ 0 := by
        rintro rfl
        rw [Nat.coprime_zero_right] at coprime
        omega
      rw [if_pos more, if_neg hb]
      refine ih (a % b) (Nat.mod_lt _ (by omega)) (by omega) ?_ second ?_
      · refine Nat.Coprime.symm ?_
        rw [Nat.Coprime, ← Nat.gcd_rec]
        exact coprime.symm
      · have below := Nat.mod_lt (a / b * x0) (show 0 < 2 ^ 32 by norm_num)
        have word : ((2 ^ 32 : ℕ) : ZMod M) = 0 := (ZMod.natCast_eq_zero_iff _ _).mpr hM
        have division : (b * (a / b : ℕ) + (a % b : ℕ) : ZMod M) = a := by exact_mod_cast congrArg _ (Nat.div_add_mod a b)
        rw [cast_word hM, Nat.cast_sub (by omega), Nat.cast_add, word, cast_word hM, Nat.cast_mul, add_zero]
        linear_combination first - (a / b : ℕ) * second - division
    · have one : a = 1 := by omega
      rw [if_neg more]
      exact ⟨x1, rfl, by rw [first, one, Nat.cast_one]⟩

end Euclid
end NbTheory

namespace VectorNTRU
open RingGSW (Poly Marker gpow int32 int32_eq int32_cases)
open NativeVector (centered)

/-! ### Keys -/

section Keys
variable (p : VectorNTRUCryptoParams)

abbrev EvalKey : Type := Fin (p.digitsG - 1) → Poly p

/-- The coefficient that a power of the gadget base goes to: `mm` is below `N`, and a negative `m` subtracts. -/
def marker (N : ℕ) (m : ℤ) : Marker :=
  let mm := ((m.tmod N + N).tmod N).toNat
  if m < 0 then .sub mm else .add mm

def kdmKeyGenXZDDF (invsk : Poly p) (e : ℕ → Poly p) (m : ℤ) : EvalKey p :=
  fun i => (marker p.N m).apply (gpow p (i + 1)) (e i) * invsk

def keyGenXZDDF (invsk : Poly p) (e : ℕ → Poly p) (m : ℤ) : EvalKey p :=
  fun i => e i * invsk + (marker p.N m).apply (gpow p (i + 1)) 0

def keyGenAuto [NeZero p.N] (sk invsk : Poly p) (e : ℕ → Poly p) (k : ℕ) : EvalKey p :=
  fun i => (e i + NativePoly.times (gpow p (i + 1)) (substPow k sk)) * invsk

/-- A result of `int` arithmetic, whose overflow is undefined. -/
def ofInt (x : ℤ) : Except Fault ℤ := if -2 ^ 31 ≤ x ∧ x < 2 ^ 31 then .ok x else .error .outOfRange

/-- `s > modHalf ? mod - s : -s`. -/
def message (mod v : ℕ) : Except Fault ℤ :=
  let mod := int32 mod
  let s := int32 v
  if s > mod / 2 then ofInt (mod - s) else ofInt (-s)

/-- `sums %= mod`, and half of the residues become negative. -/
def reduceSum (mod sums : ℤ) : Except Fault ℤ := do
  if mod = 0 then throw .divisionByZero
  let sums := sums.tmod mod
  if sums > mod / 2 then ofInt (sums - mod) else return sums

/-- The message of the last key. Of a vector of length `n` only the first `n` entries are read. -/
def sumSecret (n mod : ℕ) (sv : ℕ → ℕ) : Except Fault ℤ := do
  let sums ← (List.range n).foldlM (fun sums i => ofInt (sums + int32 (sv i))) 0
  reduceSum (int32 mod) sums

/-- The exponent of the automorphism whose key is made at a position. -/
def autoExponent (position : ℕ) : ℕ := 2 * p.N / p.q * (position + 1) + 1

/-- `(*ek)[0][0]` and `(*ek)[0][1]`, both with the places of the larger one. -/
structure AccKey (n : ℕ) where
  eval : Fin (max (p.q - 1) (n + 1)) → Option (EvalKey p)
  auto : Fin (max (p.q - 1) (n + 1)) → Option (EvalKey p)

variable {p}

/-- The evaluation keys hold the messages and the automorphism keys are made for the exponents of their positions. -/
def accKey [NeZero p.N] (n : ℕ) (sk invsk : Poly p) (messages : ℕ → ℤ) (sums : ℤ) (e eAuto : ℕ → ℕ → Poly p) : AccKey p n where
  eval i :=
    if i.val = 0 then some (kdmKeyGenXZDDF p invsk (e 0) (messages 0))
    else if i.val < n then some (keyGenXZDDF p invsk (e i) (messages i))
    else if i.val = n then some (keyGenXZDDF p invsk (e n) sums)
    else none
  auto i := if i.val < p.q - 1 then some (keyGenAuto p sk invsk (eAuto i) (autoExponent p i)) else none

/-- `KeyGenAcc` for the noise `e` of the evaluation keys and `eAuto` of the automorphism keys. -/
def keyGenAcc [NeZero p.N] (n : ℕ) (sk invsk : Poly p) (mod : ℕ) (sv : ℕ → ℕ) (e eAuto : ℕ → ℕ → Poly p) :
    Except Fault (AccKey p n) := do
  if n = 0 then throw .outOfRange
  let messages ← (List.range n).mapM fun i => message mod (sv i)
  let sums ← sumSecret n mod sv
  return accKey n sk invsk (messages.getD · 0) sums e eAuto

end Keys

/-! ### Evaluation -/

inductive Call where
  | addToAcc (index : ℕ)
  | automorphism (a position : ℕ)
  deriving DecidableEq

section Eval
variable (p : VectorNTRUCryptoParams)

/-- `w[i]`, in `uint32_t` arithmetic. -/
def wOf (a : ℕ) : ℕ := ((2 * p.N % 2 ^ 32 / p.q) * a + 1) % 2 ^ 32

/-- `ModInverse(w, 2 * N) % (2 * N)`. -/
def invOf (w : ℕ) : Except Fault ℕ := do
  let inverse ← NbTheory.modInverse w (2 * p.N % 2 ^ 32)
  return inverse % (2 * p.N % 2 ^ 32)

/-- `invw`, which ends with a one. -/
def invws (n : ℕ) (a : ℕ → ℕ) : Except Fault (List ℕ) := do
  let inverses ← (List.range n).mapM fun i => invOf p (wOf p (a i))
  return inverses ++ [1]

/-- `NATIVEw[i]`. -/
def quotient (a : ℕ → ℕ) (invw : List ℕ) (i : ℕ) : ℕ :=
  wOf p (a i) * invw.getD (i + 1) 0 % 2 ^ 32 % (2 * p.N % 2 ^ 32)

/-- `invindex[i]`. -/
def positionOf (w : ℕ) : ℕ := ((int32 w - 3).tdiv 2 % 2 ^ 32).toNat

/-- The calls of `EvalAcc` in their order. -/
def calls (n : ℕ) (a : ℕ → ℕ) : Except Fault (List Call) := do
  let invw ← invws p n a
  return (List.range n).flatMap (fun i =>
    Call.addToAcc i ::
      if quotient p a invw i ≠ 1 then [Call.automorphism (quotient p a invw i) (positionOf (quotient p a invw i))]
      else []) ++ [Call.addToAcc n]

variable {p}

/-- `AddToAccXZDDF` and `Automorphism`. -/
structure Operations (p : VectorNTRUCryptoParams) where
  addToAcc : EvalKey p → Poly p → Poly p
  automorphism : ℕ → EvalKey p → Poly p → Poly p

def readKey {n : ℕ} (keys : Fin (max (p.q - 1) (n + 1)) → Option (EvalKey p)) (index : ℕ) : Except Fault (EvalKey p) :=
  if inside : index < max (p.q - 1) (n + 1) then
    match keys ⟨index, inside⟩ with
    | some key => .ok key
    | none => .error .nullDereference
  else .error .outOfRange

def perform {n : ℕ} (ops : Operations p) (ek : AccKey p n) (acc : Poly p) : Call → Except Fault (Poly p)
  | .addToAcc index => do return ops.addToAcc (← readKey ek.eval index) acc
  | .automorphism a position => do return ops.automorphism a (← readKey ek.auto position) acc

def evalAcc {n : ℕ} (ops : Operations p) (ek : AccKey p n) (acc : Poly p) (a : ℕ → ℕ) : Except Fault (Poly p) := do
  let calls ← calls p n a
  calls.foldlM (perform ops ek) acc

/-- `polym2` of `BootstrapGateCore`, which the accumulator starts with. -/
def polym2 [NeZero p.N] (polym : Poly p) (a : ℕ → ℕ) : Except Fault (Poly p) := do
  let invw ← invOf p (wOf p (a 0))
  return substPow invw polym

end Eval

/-! ### Inverses -/

/-- `N` and `q` are powers of two, and the cyclotomic order fits its type. -/
structure Suitable (p : VectorNTRUCryptoParams) : Prop where
  power : ∃ e, p.N = 2 ^ e
  narrow : 2 * p.N < 2 ^ 32
  divides : p.q ∣ p.N

section Inverses
variable {p : VectorNTRUCryptoParams} (ok : Suitable p)

namespace Suitable
include ok

theorem N_pos : 0 < p.N := by
  obtain ⟨e, he⟩ := ok.power
  rw [he]
  positivity

theorem q_pos : 0 < p.q := Nat.pos_of_dvd_of_pos ok.divides ok.N_pos

theorem word : 2 * p.N ∣ 2 ^ 32 := by
  obtain ⟨e, he⟩ := ok.power
  have narrow := ok.narrow
  rw [he, ← pow_succ'] at narrow ⊢
  exact pow_dvd_pow 2 ((Nat.pow_lt_pow_iff_right Nat.one_lt_two).mp narrow).le

theorem ratio_eq : 2 * p.N / p.q = 2 * (p.N / p.q) := Nat.mul_div_assoc 2 ok.divides

theorem half_pos : 0 < p.N / p.q := Nat.div_pos (Nat.le_of_dvd ok.N_pos ok.divides) ok.q_pos

theorem ratio_mul : 2 * p.N / p.q * p.q = 2 * p.N := Nat.div_mul_cancel (ok.divides.mul_left 2)

theorem wOf_eq {a : ℕ} (ha : a < p.q) : wOf p a = 2 * p.N / p.q * a + 1 ∧ wOf p a < 2 * p.N := by
  have step : 2 ≤ 2 * p.N / p.q := by
    have := ok.half_pos
    rw [ok.ratio_eq]
    omega
  have below : 2 * p.N / p.q * a + 1 < 2 * p.N := by
    calc 2 * p.N / p.q * a + 1 < 2 * p.N / p.q * a + 2 * p.N / p.q := by omega
      _ = 2 * p.N / p.q * (a + 1) := (Nat.mul_succ _ _).symm
      _ ≤ 2 * p.N / p.q * p.q := Nat.mul_le_mul_left _ ha
      _ = 2 * p.N := ok.ratio_mul
  have narrow := ok.narrow
  have value : wOf p a = 2 * p.N / p.q * a + 1 := by
    rw [wOf, Nat.mod_eq_of_lt narrow, Nat.mod_eq_of_lt (below.trans narrow)]
  exact ⟨value, value.trans_lt below⟩

theorem wOf_odd {a : ℕ} (ha : a < p.q) : wOf p a % 2 = 1 := by
  rw [(ok.wOf_eq ha).1, ok.ratio_eq, mul_assoc]
  omega

theorem coprime_of_odd {t : ℕ} (odd : t % 2 = 1) : Nat.Coprime t (2 * p.N) := by
  obtain ⟨e, he⟩ := ok.power
  rw [he, ← pow_succ']
  exact Nat.Coprime.pow_right _ (Nat.odd_iff.mpr odd).coprime_two_right

theorem invOf_spec {w : ℕ} (odd : w % 2 = 1) : ∃ v, invOf p w = .ok v ∧ v < 2 * p.N ∧ v * w ≡ 1 [MOD 2 * p.N] := by
  have two := ok.N_pos
  have first : (((1 : ℕ) : ZMod (2 * p.N)) * w) = (w : ℕ) := by simp
  have second : (((0 : ℕ) : ZMod (2 * p.N)) * w) = (2 * p.N : ℕ) := by rw [ZMod.natCast_self, Nat.cast_zero, zero_mul]
  obtain ⟨x, run, inverse⟩ :=
    NbTheory.modInverseLoop_spec ok.word (show 0 < w by omega) (ok.coprime_of_odd odd) first second
  refine ⟨x % (2 * p.N), ?_, Nat.mod_lt _ (by omega), ?_⟩
  · rw [invOf, Nat.mod_eq_of_lt ok.narrow, NbTheory.modInverse, if_neg (by omega), run]
    rfl
  · refine ((Nat.mod_modEq x _).mul_right w).trans ?_
    rw [← ZMod.natCast_eq_natCast_iff]
    push_cast
    exact inverse

end Suitable

/-- What `invw` holds: inverses of the exponents, and a one after them. -/
structure Inverses (p : VectorNTRUCryptoParams) (n : ℕ) (a v : ℕ → ℕ) : Prop where
  run : ∀ i < n, invOf p (wOf p (a i)) = .ok (v i)
  small : ∀ i < n, v i < 2 * p.N
  inverse : ∀ i < n, v i * wOf p (a i) ≡ 1 [MOD 2 * p.N]
  last : v n = 1

/-- The exponent of the automorphism after the product with key `i`. -/
def turn (p : VectorNTRUCryptoParams) (a v : ℕ → ℕ) (i : ℕ) : ℕ := wOf p (a i) * v (i + 1) % (2 * p.N)

def round (p : VectorNTRUCryptoParams) (a v : ℕ → ℕ) (i : ℕ) : List Call :=
  .addToAcc i :: if turn p a v i ≠ 1 then [.automorphism (turn p a v i) (positionOf (turn p a v i))] else []

include ok in
theorem turn_lt {a v : ℕ → ℕ} (i : ℕ) : turn p a v i < 2 * p.N := Nat.mod_lt _ (Nat.mul_pos two_pos ok.N_pos)

include ok in
theorem exists_inverses {n : ℕ} {a : ℕ → ℕ} (ha : ∀ i < n, a i < p.q) : ∃ v, Inverses p n a v := by
  have each : ∀ i, ∃ v, (i < n → invOf p (wOf p (a i)) = .ok v ∧ v < 2 * p.N ∧ v * wOf p (a i) ≡ 1 [MOD 2 * p.N]) ∧
      (n ≤ i → v = 1) := by
    intro i
    by_cases inside : i < n
    · obtain ⟨v, spec⟩ := ok.invOf_spec (ok.wOf_odd (ha i inside))
      exact ⟨v, fun _ => spec, fun beyond => absurd inside (by omega)⟩
    · exact ⟨1, fun inside' => absurd inside' inside, fun _ => rfl⟩
  choose v inside beyond using each
  exact ⟨v, fun i hi => (inside i hi).1, fun i hi => (inside i hi).2.1, fun i hi => (inside i hi).2.2, beyond n le_rfl⟩

namespace Inverses
variable {n : ℕ} {a v : ℕ → ℕ} (inv : Inverses p n a v)
include inv

theorem odd {i : ℕ} (hi : i ≤ n) : v i % 2 = 1 := by
  rcases hi.lt_or_eq with inside | rfl
  · have two : v i * wOf p (a i) % 2 = 1 := (inv.inverse i inside).of_mul_right p.N
    exact Nat.odd_iff.mp (Nat.odd_mul.mp (Nat.odd_iff.mpr two)).1
  · rw [inv.last]

theorem eq_one {i : ℕ} (inside : i < n) (zero : a i = 0) : v i = 1 := by
  have unit := inv.inverse i inside
  have small := inv.small i inside
  have odd := inv.odd inside.le
  have value : wOf p (a i) = 1 := by rw [wOf, zero, mul_zero]; rfl
  rw [value, mul_one] at unit
  exact Nat.ModEq.eq_of_lt_of_lt unit small (by omega)

include ok in
theorem calls_eq : calls p n a = .ok ((List.range n).flatMap (round p a v) ++ [.addToAcc n]) := by
  have table : invws p n a = .ok ((List.range n).map v ++ [1]) := by
    rw [invws, Run.mapM_eq_map fun i hi => inv.run i (List.mem_range.mp hi)]
    rfl
  have read : ∀ i < n, ((List.range n).map v ++ [1]).getD (i + 1) 0 = v (i + 1) := by
    intro i hi
    rcases (show i + 1 ≤ n from hi).lt_or_eq with inside | last
    · rw [List.getD_append _ _ _ _ (by simpa using inside)]
      simp [inside]
    · rw [List.getD_append_right _ _ _ _ (by simp [last])]
      simp [last, inv.last]
  have turns : ∀ i < n, quotient p a ((List.range n).map v ++ [1]) i = turn p a v i := by
    intro i hi
    rw [quotient, read i hi, Nat.mod_eq_of_lt ok.narrow, Nat.mod_mod_of_dvd _ ok.word, turn]
  rw [calls, table]
  refine congrArg (fun l => Except.ok (l ++ [Call.addToAcc n])) (List.flatMap_congr fun i hi => ?_)
  rw [turns i (List.mem_range.mp hi), round]

include ok in
theorem turn_odd (ha : ∀ i < n, a i < p.q) {i : ℕ} (hi : i < n) : turn p a v i % 2 = 1 := by
  rw [turn, Nat.mod_mod_of_dvd _ (Nat.dvd_mul_right 2 p.N)]
  exact Nat.odd_iff.mp ((Nat.odd_iff.mpr (ok.wOf_odd (ha i hi))).mul (Nat.odd_iff.mpr (inv.odd hi)))

theorem turn_mul {i : ℕ} (hi : i < n) : turn p a v i * v i ≡ v (i + 1) [MOD 2 * p.N] := by
  have cancel := (inv.inverse i hi).mul_right (v (i + 1))
  rw [one_mul] at cancel
  refine ((Nat.mod_modEq _ _).mul_right _).trans ?_
  rwa [mul_right_comm, mul_comm (wOf p (a i))]

end Inverses
end Inverses

/-! ### Messages -/

section Messages
variable {mod : ℕ}

/-- A coefficient of a ternary secret modulo `mod`. -/
def Ternary (mod v : ℕ) : Prop := v = 0 ∨ v = 1 ∨ v = mod - 1

theorem two_lt_of_int32 (wide : 2 < int32 mod) : 2 < mod := by
  have read := int32_cases mod
  omega

theorem abs_centered_le (wide : 2 < mod) {v : ℕ} (ternary : Ternary mod v) : |centered mod v| ≤ 1 := by
  unfold centered
  rw [abs_le]
  rcases ternary with rfl | rfl | rfl
  all_goals split <;> omega

theorem int32_pred (wide : 2 < int32 mod) : int32 (mod - 1 : ℕ) = int32 mod - 1 := by
  have read := int32_cases mod
  have read' := int32_cases (mod - 1 : ℕ)
  omega

theorem message_eq (wide : 2 < int32 mod) {v : ℕ} (ternary : Ternary mod v) : message mod v = .ok (-centered mod v) := by
  have large := two_lt_of_int32 wide
  have read := int32_cases mod
  rcases ternary with rfl | rfl | rfl
  · have value : centered mod 0 = 0 := if_neg (by omega)
    rw [message, int32_eq (by norm_num) (by norm_num), if_neg (by omega), value, ofInt, if_pos (by norm_num)]
    rfl
  · have value : centered mod 1 = 1 := if_neg (by omega)
    rw [message, int32_eq (by norm_num) (by norm_num), if_neg (by omega), value, ofInt, if_pos (by norm_num)]
    rfl
  · have value : centered mod (mod - 1) = -1 := by
      rw [centered, if_pos (by omega)]
      omega
    rw [message, int32_pred wide, if_pos (by omega), value, ofInt, if_pos (by omega), sub_sub_cancel]
    rfl

theorem int32_nonneg (wide : 2 < int32 mod) {v : ℕ} (ternary : Ternary mod v) : 0 ≤ int32 v := by
  rcases ternary with rfl | rfl | rfl
  · decide
  · decide
  · rw [int32_pred wide]
    omega

theorem int32_modEq_centered (wide : 2 < int32 mod) {v : ℕ} (ternary : Ternary mod v) :
    int32 v ≡ centered mod v [ZMOD int32 mod] := by
  have large := two_lt_of_int32 wide
  rcases ternary with rfl | rfl | rfl
  · rw [centered, if_neg (by omega), int32_eq (x := (0 : ℕ)) (by norm_num) (by norm_num)]
  · rw [centered, if_neg (by omega), int32_eq (x := (1 : ℕ)) (by norm_num) (by norm_num)]
  · rw [centered, if_pos (by omega), int32_pred wide, show ((mod - 1 : ℕ) : ℤ) - mod = -1 by omega]
    exact Int.modEq_iff_dvd.mpr ⟨-1, by ring⟩

/-- Adding up numbers that are not negative goes through when the whole sum is an `int`. -/
theorem foldlM_ofInt {x : ℕ → ℤ} {n : ℕ} (nonneg : ∀ i < n, 0 ≤ x i) :
    (List.range n).foldlM (fun sums i => ofInt (sums + x i)) 0 = ofInt (∑ i ∈ Finset.range n, x i) := by
  induction n with
  | zero => rfl
  | succ n ih =>
    have before : 0 ≤ ∑ i ∈ Finset.range n, x i :=
      Finset.sum_nonneg fun i hi => nonneg i ((Finset.mem_range.mp hi).trans n.lt_succ_self)
    have next := nonneg n n.lt_succ_self
    rw [List.range_succ, List.foldlM_append, ih fun i hi => nonneg i (hi.trans n.lt_succ_self), Finset.sum_range_succ]
    by_cases fits : ∑ i ∈ Finset.range n, x i < 2 ^ 31
    · rw [ofInt, if_pos ⟨by omega, fits⟩]
      exact bind_pure (ofInt (∑ i ∈ Finset.range n, x i + x n))
    · rw [ofInt, if_neg (by omega), ofInt, if_neg (by omega)]
      rfl

theorem reduceSum_eq {mod sums sum : ℤ} (nonneg : 0 ≤ sums) (same : sums ≡ sum [ZMOD mod]) (room : 2 * |sum| < mod)
    (fits : mod < 2 ^ 31) : reduceSum mod sums = .ok sum := by
  have small := abs_le.mp (show |sum| ≤ |sum| from le_rfl)
  have value : reduceSum mod sums = if sum % mod > mod / 2 then ofInt (sum % mod - mod) else .ok (sum % mod) := by
    rw [← same, ← Int.tmod_eq_emod_of_nonneg nonneg, reduceSum, if_neg (by omega)]
    rfl
  rw [value]
  by_cases positive : 0 ≤ sum
  · rw [Int.emod_eq_of_lt positive (by omega), if_neg (by omega)]
  · have wraps : sum % mod = sum + mod := by rw [← Int.add_emod_right, Int.emod_eq_of_lt (by omega) (by omega)]
    rw [wraps, if_pos (by omega), add_sub_cancel_right, ofInt, if_pos (by omega)]

section Sum
variable {n : ℕ} {sv : ℕ → ℕ} (ternary : ∀ i < n, Ternary mod (sv i)) (wide : 2 < int32 mod)
include ternary wide

theorem sum_lt_of_ok {sums : ℤ} (run : sumSecret n mod sv = .ok sums) : ∑ i ∈ Finset.range n, int32 (sv i) < 2 ^ 31 := by
  rw [sumSecret, foldlM_ofInt fun i hi => int32_nonneg wide (ternary i hi)] at run
  obtain ⟨whole, fits, _⟩ := Run.bind_ok run
  unfold ofInt at fits
  split at fits
  · rename_i inside
    exact inside.2
  · cases fits

theorem abs_sum_centered_le : |∑ i ∈ Finset.range n, centered mod (sv i)| ≤ n := by
  calc |∑ i ∈ Finset.range n, centered mod (sv i)|
      ≤ ∑ i ∈ Finset.range n, |centered mod (sv i)| := Finset.abs_sum_le_sum_abs _ _
    _ ≤ ∑ _i ∈ Finset.range n, 1 := Finset.sum_le_sum fun i hi =>
        abs_centered_le (two_lt_of_int32 wide) (ternary i (Finset.mem_range.mp hi))
    _ = n := by simp

theorem sumSecret_eq (room : 2 * n < int32 mod) (fits : ∑ i ∈ Finset.range n, int32 (sv i) < 2 ^ 31) :
    sumSecret n mod sv = .ok (∑ i ∈ Finset.range n, centered mod (sv i)) := by
  have nonneg : 0 ≤ ∑ i ∈ Finset.range n, int32 (sv i) :=
    Finset.sum_nonneg fun i hi => int32_nonneg wide (ternary i (Finset.mem_range.mp hi))
  have same : ∑ i ∈ Finset.range n, int32 (sv i) ≡ ∑ i ∈ Finset.range n, centered mod (sv i) [ZMOD int32 mod] :=
    Int.ModEq.sum fun i hi => int32_modEq_centered wide (ternary i (Finset.mem_range.mp hi))
  have small := abs_sum_centered_le ternary wide
  have read := int32_cases mod
  rw [sumSecret, foldlM_ofInt fun i hi => int32_nonneg wide (ternary i hi), ofInt, if_pos ⟨by omega, fits⟩]
  exact (pure_bind _ (reduceSum (int32 mod))).trans (reduceSum_eq nonneg same (by omega) (by omega))

end Sum
end Messages

/-! ### The phase of the accumulator -/

section Phase
variable {p : VectorNTRUCryptoParams} [NeZero p.N] {n : ℕ} {sk invsk : Poly p} {e eAuto : ℕ → ℕ → Poly p}

omit [NeZero p.N] in
theorem marker_eq {m : ℤ} (small : |m| < p.N) :
    marker p.N m = if m < 0 then .sub (m % p.N).toNat else .add (m % p.N).toNat := by
  have range := abs_lt.mp small
  have own : m.tmod p.N = m := by
    rcases le_or_gt 0 m with nonneg | negative
    · exact Int.tmod_eq_of_lt nonneg range.2
    · have positive := Int.tmod_eq_of_lt (show 0 ≤ -m by omega) (show -m < p.N by omega)
      rwa [Int.neg_tmod, neg_inj] at positive
  rw [marker, own, Int.tmod_eq_emod_of_nonneg (by omega), Int.add_emod_right]

theorem marker_poly {m : ℤ} (small : |m| < p.N) : (marker p.N m).poly = (xpow m : Poly p) := by
  have range := abs_lt.mp small
  rw [marker_eq small]
  by_cases negative : m < 0
  · have value : m % p.N = m + p.N := by rw [← Int.add_emod_right, Int.emod_eq_of_lt (by omega) (by omega)]
    rw [if_pos negative, value, Marker.poly, ← xpow_natCast, Int.toNat_of_nonneg (by omega), ← xpow_sub_self,
      add_sub_cancel_right]
  · rw [if_neg negative, Int.emod_eq_of_lt (by omega) range.2, Marker.poly, ← xpow_natCast, Int.toNat_of_nonneg (by omega)]

/-- The accumulator starts as a polynomial, and its first product makes it an encryption. -/
def seen (sk : Poly p) (i : ℕ) (acc : Poly p) : Poly p := if i = 0 then acc else acc * sk

/-- What is assumed of `AddToAccXZDDF` and `Automorphism`, with the keys that the generators make. -/
structure Lawful (ops : Operations p) (n : ℕ) (sk invsk : Poly p) (e eAuto : ℕ → ℕ → Poly p) : Prop where
  first : ∀ m : ℤ, |m| < p.N → ∀ acc,
    ops.addToAcc (kdmKeyGenXZDDF p invsk (e 0) m) acc * sk = acc * (marker p.N m).poly
  later : ∀ i, 0 < i → i ≤ n → ∀ m : ℤ, |m| < p.N → ∀ acc,
    ops.addToAcc (keyGenXZDDF p invsk (e i) m) acc * sk = acc * sk * (marker p.N m).poly
  automorphism : ∀ position < p.q - 1, ∀ t, t % 2 = 1 → ∀ acc,
    ops.automorphism t (keyGenAuto p sk invsk (eAuto position) t) acc * sk = substPow t (acc * sk)

/-- What the calls with the keys in `ek` do, when key `i` holds `X ^ mu i`. -/
structure Performs (ops : Operations p) (ek : AccKey p n) (sk : Poly p) (mu : ℕ → ℤ) : Prop where
  product : ∀ i ≤ n, ∀ acc, ∃ next, perform ops ek acc (.addToAcc i) = .ok next ∧ next * sk = seen sk i acc * xpow (mu i)
  automorphism : ∀ position < p.q - 1, autoExponent p position % 2 = 1 → ∀ acc,
    ∃ next, perform ops ek acc (.automorphism (autoExponent p position) position) = .ok next ∧
      next * sk = substPow (autoExponent p position) (acc * sk)

/-- The exponents that the evaluation keys hold. -/
def exponentAt (n mod : ℕ) (sv : ℕ → ℕ) (i : ℕ) : ℤ :=
  if i < n then -centered mod (sv i) else ∑ i ∈ Finset.range n, centered mod (sv i)

theorem accKey_performs {ops : Operations p} (lawful : Lawful ops n sk invsk e eAuto) {messages : ℕ → ℤ} {sums : ℤ}
    {mu : ℕ → ℤ} (small : ∀ i, |mu i| < p.N) (pos : 0 < n) (before : ∀ i < n, messages i = mu i) (last : sums = mu n) :
    Performs ops (accKey n sk invsk messages sums e eAuto) sk mu where
  product i hi acc := by
    have inside : i < max (p.q - 1) (n + 1) := by omega
    rcases i.eq_zero_or_pos with rfl | positive
    · refine ⟨ops.addToAcc (kdmKeyGenXZDDF p invsk (e 0) (mu 0)) acc, ?_, ?_⟩
      · rw [perform, readKey, dif_pos inside, ← before 0 pos]
        rfl
      · rw [seen, if_pos rfl, lawful.first _ (small 0), marker_poly (small 0)]
    · have read : readKey (accKey n sk invsk messages sums e eAuto).eval i = .ok (keyGenXZDDF p invsk (e i) (mu i)) := by
        rw [readKey, dif_pos inside]
        rcases hi.lt_or_eq with hi | rfl
        · simp only [accKey, if_neg positive.ne', if_pos hi, before i hi]
        · simp only [accKey, if_neg positive.ne', if_neg (lt_irrefl i), if_true, last]
      refine ⟨ops.addToAcc (keyGenXZDDF p invsk (e i) (mu i)) acc, ?_, ?_⟩
      · rw [perform, read]
        rfl
      · rw [seen, if_neg positive.ne', lawful.later i positive hi _ (small i), marker_poly (small i)]
  automorphism position hp odd acc := by
    have inside : position < max (p.q - 1) (n + 1) := by omega
    refine ⟨_, ?_, lawful.automorphism position hp _ odd acc⟩
    rw [perform, readKey, dif_pos inside]
    simp only [accKey, if_pos hp]
    rfl

section Messages
variable {mod : ℕ} {sv : ℕ → ℕ} (ternary : ∀ i < n, Ternary mod (sv i))
include ternary

omit [NeZero p.N] in
theorem exponentAt_small (short : n < p.N) (wide : 2 < int32 mod) (i : ℕ) : |exponentAt n mod sv i| < p.N := by
  unfold exponentAt
  split
  · rename_i inside
    have := abs_centered_le (two_lt_of_int32 wide) (ternary i inside)
    rw [abs_neg]
    omega
  · have := abs_sum_centered_le ternary wide
    omega

theorem keyGenAcc_eq (pos : 0 < n) (room : 2 * n < int32 mod) (fits : ∑ i ∈ Finset.range n, int32 (sv i) < 2 ^ 31) :
    keyGenAcc n sk invsk mod sv e eAuto = .ok (accKey n sk invsk (((List.range n).map (exponentAt n mod sv)).getD · 0)
      (∑ i ∈ Finset.range n, centered mod (sv i)) e eAuto) := by
  have wide : 2 < int32 mod := by omega
  have messages : (List.range n).mapM (fun i => message mod (sv i)) = .ok ((List.range n).map (exponentAt n mod sv)) := by
    refine Run.mapM_eq_map fun i hi => ?_
    rw [message_eq wide (ternary i (List.mem_range.mp hi)), exponentAt, if_pos (List.mem_range.mp hi)]
  rw [keyGenAcc, if_neg pos.ne', messages, sumSecret_eq ternary wide room fits]
  rfl

theorem keyGenAcc_performs {ops : Operations p} (lawful : Lawful ops n sk invsk e eAuto) (pos : 0 < n)
    (short : n < p.N) (room : 2 * n < int32 mod) (fits : ∑ i ∈ Finset.range n, int32 (sv i) < 2 ^ 31) :
    ∃ ek, keyGenAcc n sk invsk mod sv e eAuto = .ok ek ∧ Performs ops ek sk (exponentAt n mod sv) := by
  refine ⟨_, keyGenAcc_eq ternary pos room fits, accKey_performs lawful (exponentAt_small ternary short (by omega)) pos ?_ ?_⟩
  · intro i hi
    simp [hi]
  · rw [exponentAt, if_neg (lt_irrefl n)]

end Messages

section Rounds
variable (ok : Suitable p) {a v : ℕ → ℕ} (ha : ∀ i < n, a i < p.q) (inv : Inverses p n a v) {ops : Operations p}
  {ek : AccKey p n} {mu : ℕ → ℤ} (performs : Performs ops ek sk mu)

/-- Every key that is looked up was made for the automorphism it is used for. -/
def Keyed (p : VectorNTRUCryptoParams) (n : ℕ) (a v : ℕ → ℕ) : Prop :=
  ∀ i < n, turn p a v i ≠ 1 →
    positionOf (turn p a v i) < p.q - 1 ∧ autoExponent p (positionOf (turn p a v i)) = turn p a v i

include inv in
/-- Under the automorphism that is still to come, a factor `X ^ mu` is `X ^ (mu * w)`. -/
theorem substPow_inverse_mul {i : ℕ} (hi : i < n) (f : Poly p) (m : ℤ) :
    substPow (v i) f * xpow m = substPow (v i) (f * xpow (m * wOf p (a i))) := by
  have unit : (v i * wOf p (a i) : ℤ) ≡ 1 [ZMOD 2 * p.N] := by exact_mod_cast Int.natCast_modEq_iff.mpr (inv.inverse i hi)
  rw [substPow_mul (inv.odd hi.le), substPow_xpow (inv.odd hi.le)]
  congr 1
  refine xpow_congr ?_
  calc m = m * 1 := (mul_one m).symm
    _ ≡ m * (v i * wOf p (a i)) [ZMOD 2 * p.N] := (unit.mul_left m).symm
    _ = v i * (m * wOf p (a i)) := by ring

include ok ha inv performs in
theorem phase_rounds (keyed : Keyed p n a v) (polym : Poly p) {i : ℕ} (hi : i ≤ n) :
    ∃ acc, ((List.range i).flatMap (round p a v)).foldlM (perform ops ek) (substPow (v 0) polym) = .ok acc ∧
      seen sk i acc = substPow (v i) (polym * xpow (∑ m ∈ Finset.range i, mu m * wOf p (a m))) := by
  induction i with
  | zero => exact ⟨_, rfl, by rw [seen, if_pos rfl, Finset.sum_range_zero, xpow_zero, mul_one]⟩
  | succ i ih =>
    obtain ⟨acc, run, before⟩ := ih (by omega)
    obtain ⟨next, product, value⟩ := performs.product i (by omega) acc
    rw [before, substPow_inverse_mul inv hi, mul_assoc, ← xpow_add, ← Finset.sum_range_succ] at value
    have later : v (i + 1) ≡ turn p a v i * v i [MOD 2 * p.N] := (inv.turn_mul hi).symm
    rw [List.range_succ, List.flatMap_append, List.flatMap_singleton, round]
    by_cases stays : turn p a v i = 1
    · rw [stays, one_mul] at later
      refine ⟨next, Run.foldlM_append_ok run (Run.foldlM_cons_ok product ?_), ?_⟩
      · rw [if_neg (not_not_intro stays)]
        rfl
      · rw [seen, if_neg i.succ_ne_zero, value, substPow_congr later]
    · obtain ⟨inside, exponent⟩ := keyed i hi stays
      have odd := inv.turn_odd ok ha hi
      obtain ⟨last, turned, rotated⟩ := performs.automorphism _ inside (by rwa [exponent]) next
      rw [exponent] at turned rotated
      refine ⟨last, Run.foldlM_append_ok run (Run.foldlM_cons_ok product ?_), ?_⟩
      · rw [if_pos stays]
        exact Run.foldlM_cons_ok turned rfl
      · rw [seen, if_neg i.succ_ne_zero, rotated, value, substPow_substPow odd, substPow_congr later]

include ok ha inv performs in
/-- The rounds end with the automorphism undone, and the last key removes the sum of the messages. -/
theorem evalAcc_phase (pos : 0 < n) (keyed : Keyed p n a v) (polym : Poly p) :
    ∃ start acc, polym2 polym a = .ok start ∧ evalAcc ops ek start a = .ok acc ∧
      acc * sk = polym * xpow (∑ m ∈ Finset.range n, mu m * wOf p (a m) + mu n) := by
  obtain ⟨acc, run, before⟩ := phase_rounds ok ha inv performs keyed polym le_rfl
  obtain ⟨last, product, value⟩ := performs.product n le_rfl acc
  refine ⟨substPow (v 0) polym, last, ?_, ?_, ?_⟩
  · rw [polym2, inv.run 0 pos]
    rfl
  · rw [evalAcc, inv.calls_eq ok]
    exact Run.foldlM_append_ok run (Run.foldlM_cons_ok product rfl)
  · rw [value, before, inv.last, substPow_one, mul_assoc, ← xpow_add]

end Rounds
end Phase

/-! ### Which keys are looked up -/

section Positions
variable {p : VectorNTRUCryptoParams} {n : ℕ} (ok : Suitable p) {a v : ℕ → ℕ}
include ok

theorem exponents_sum (ha : ∀ i < n, a i < p.q) (mod : ℕ) (sv : ℕ → ℕ) :
    ∑ m ∈ Finset.range n, exponentAt n mod sv m * wOf p (a m) + exponentAt n mod sv n =
      -((2 * p.N / p.q : ℕ) * ∑ m ∈ Finset.range n, a m * centered mod (sv m)) := by
  have each : ∀ m ∈ Finset.range n, exponentAt n mod sv m * wOf p (a m) =
      -((2 * p.N / p.q : ℕ) * (a m * centered mod (sv m))) - centered mod (sv m) := by
    intro m hm
    rw [exponentAt, if_pos (Finset.mem_range.mp hm), (ok.wOf_eq (ha m (Finset.mem_range.mp hm))).1]
    push_cast
    ring
  rw [Finset.sum_congr rfl each, Finset.sum_sub_distrib, Finset.sum_neg_distrib, ← Finset.mul_sum, exponentAt,
    if_neg (lt_irrefl n), sub_add_cancel]

theorem positionOf_eq {t : ℕ} (odd : t % 2 = 1) (other : t ≠ 1) (small : t < 2 * p.N) : positionOf t = (t - 3) / 2 := by
  have narrow : p.N < 2 ^ 31 := by
    have := ok.narrow
    omega
  have half : t < 2 ^ 31 := by
    obtain ⟨e, he⟩ := ok.power
    have exponent : e < 31 := (Nat.pow_lt_pow_iff_right Nat.one_lt_two).mp (he ▸ narrow)
    calc t < 2 * p.N := small
      _ = 2 ^ (e + 1) := by rw [he, pow_succ']
      _ ≤ 2 ^ 31 := Nat.pow_le_pow_right two_pos exponent
  rw [positionOf, int32_eq (by omega) (by omega), Int.tdiv_eq_ediv_of_nonneg (by omega)]
  omega

/-- With `q = N` the exponents of the keys are all the odd numbers but one. -/
theorem keyed_of_eq (same : p.q = p.N) (ha : ∀ i < n, a i < p.q) (inv : Inverses p n a v) : Keyed p n a v := by
  intro i hi other
  have odd := inv.turn_odd ok ha hi
  have small := turn_lt ok (a := a) (v := v) i
  have two : 2 * p.N / p.q = 2 := by rw [ok.ratio_eq, same, Nat.div_self ok.N_pos]
  rw [positionOf_eq ok odd other small, autoExponent, two]
  omega

theorem keyed_of_zero (zero : ∀ i < n, a i = 0) (inv : Inverses p n a v) : Keyed p n a v := by
  intro i hi other
  refine absurd ?_ other
  have next : v (i + 1) = 1 := by
    rcases (show i + 1 ≤ n from hi).lt_or_eq with inside | last
    · exact inv.eq_one inside (zero (i + 1) inside)
    · rw [last, inv.last]
  have pos := ok.N_pos
  have value : wOf p (a i) = 1 := by
    rw [wOf, zero i hi, mul_zero]
    rfl
  rw [turn, next, value, Nat.mod_eq_of_lt (by omega)]

omit ok in
theorem exists_last (some : ∃ i < n, a i ≠ 0) : ∃ i < n, a i ≠ 0 ∧ ∀ j, i < j → j < n → a j = 0 := by
  obtain ⟨i, hi, nonzero⟩ := some
  have found := Nat.findGreatest_spec (P := fun i => i < n ∧ a i ≠ 0) hi.le ⟨hi, nonzero⟩
  refine ⟨Nat.findGreatest (fun i => i < n ∧ a i ≠ 0) n, found.1, found.2, fun j above inside => ?_⟩
  by_contra other
  exact Nat.findGreatest_is_greatest above inside.le ⟨inside, other⟩

/-- The last entry that is not zero decides. -/
theorem eq_or_zero_of_keyed (ha : ∀ i < n, a i < p.q) (inv : Inverses p n a v) (keyed : Keyed p n a v) :
    p.q = p.N ∨ ∀ i < n, a i = 0 := by
  by_contra neither
  obtain ⟨different, some⟩ := not_or.mp neither
  push Not at some
  obtain ⟨i, hi, nonzero, after⟩ := exists_last some
  have next : v (i + 1) = 1 := by
    rcases (show i + 1 ≤ n from hi).lt_or_eq with inside | last
    · exact inv.eq_one inside (after (i + 1) i.lt_succ_self inside)
    · rw [last, inv.last]
  have half := ok.half_pos
  obtain ⟨value, small⟩ := ok.wOf_eq (ha i hi)
  have exponent : turn p a v i = 2 * (p.N / p.q * a i) + 1 := by
    rw [turn, next, mul_one, Nat.mod_eq_of_lt small, value, ok.ratio_eq, mul_assoc]
  have positive : 0 < p.N / p.q * a i := Nat.mul_pos half (Nat.pos_of_ne_zero nonzero)
  obtain ⟨-, made⟩ := keyed i hi (by omega)
  rw [positionOf_eq ok (by omega) (by omega) (turn_lt ok i), autoExponent, exponent, ok.ratio_eq, mul_assoc, show (2 * (p.N / p.q * a i) + 1 - 3) / 2 + 1 = p.N / p.q * a i by omega] at made
  have one : p.N / p.q = 1 := by
    have cancel : p.N / p.q * (p.N / p.q * a i) = p.N / p.q * a i := by omega
    exact Nat.eq_of_mul_eq_mul_right positive (by rw [cancel, one_mul])
  refine different (Eq.symm ?_)
  rw [← Nat.div_mul_cancel ok.divides, one, one_mul]

end Positions

/-! ### The whole rotation -/

section Rotation
variable {p : VectorNTRUCryptoParams} [NeZero p.N]

/-- Automorphisms are applied with keys at positions below `q - 1` that were generated for them, and the accumulator that
`BootstrapGateCore` starts with is rotated by the inner product of `a` and the secret. -/
def RotatesRight (ops : Operations p) (n : ℕ) (sk invsk : Poly p) (mod : ℕ) (sv : ℕ → ℕ) (e eAuto : ℕ → ℕ → Poly p)
    (a : ℕ → ℕ) : Prop :=
  ∃ ek cs, keyGenAcc n sk invsk mod sv e eAuto = .ok ek ∧ calls p n a = .ok cs ∧
    (∀ t position, Call.automorphism t position ∈ cs → position < p.q - 1 ∧ autoExponent p position = t) ∧
    ∀ polym, ∃ start acc, polym2 polym a = .ok start ∧ evalAcc ops ek start a = .ok acc ∧
      acc * sk = polym * xpow (-((2 * p.N / p.q : ℕ) * ∑ i ∈ Finset.range n, a i * centered mod (sv i)))

variable {ops : Operations p} {n : ℕ} {sk invsk : Poly p} {mod : ℕ} {sv : ℕ → ℕ} {e eAuto : ℕ → ℕ → Poly p} {a v : ℕ → ℕ}

omit [NeZero p.N] in
theorem automorphism_mem_round {i t position : ℕ} : Call.automorphism t position ∈ round p a v i ↔
    turn p a v i ≠ 1 ∧ t = turn p a v i ∧ position = positionOf (turn p a v i) := by
  generalize turnIs : turn p a v i = turned
  rw [round, turnIs]
  generalize positionOf turned = place
  by_cases other : turned = 1
  · simp [other]
  · simp [other]

omit [NeZero p.N] in
theorem keyed_iff_calls (ok : Suitable p) (inv : Inverses p n a v) {cs : List Call} (run : calls p n a = .ok cs) :
    Keyed p n a v ↔ ∀ t position, Call.automorphism t position ∈ cs → position < p.q - 1 ∧ autoExponent p position = t := by
  rw [inv.calls_eq ok] at run
  cases run
  constructor
  · intro keyed t position member
    obtain made | last := List.mem_append.mp member
    · obtain ⟨i, hi, made⟩ := List.mem_flatMap.mp made
      obtain ⟨other, exponent, place⟩ := automorphism_mem_round.mp made
      rw [place, exponent]
      exact keyed i (List.mem_range.mp hi) other
    · simp at last
  · intro all i hi other
    have inside := List.mem_flatMap.mpr ⟨i, List.mem_range.mpr hi, automorphism_mem_round.mpr ⟨other, rfl, rfl⟩⟩
    exact all _ _ (List.mem_append_left _ inside)

theorem eq_or_zero_of_rotatesRight (ok : Suitable p) (ha : ∀ i < n, a i < p.q)
    (right : RotatesRight ops n sk invsk mod sv e eAuto a) : 0 < n ∧ (p.q = p.N ∨ ∀ i < n, a i = 0) := by
  obtain ⟨v, inv⟩ := exists_inverses ok ha
  obtain ⟨ek, cs, keys, run, found, -⟩ := right
  refine ⟨?_, eq_or_zero_of_keyed ok ha inv ((keyed_iff_calls ok inv run).mpr found)⟩
  by_contra none
  rw [keyGenAcc, if_pos (by omega)] at keys
  cases keys

/-- The keys are looked up where they are made only for `q = N`, apart from a zero vector, which needs none. The rotation
is right when moreover the stored coefficients add up to an `int`. -/
theorem rotatesRight_iff (ok : Suitable p) (short : n < p.N) (ternary : ∀ i < n, Ternary mod (sv i)) (ha : ∀ i < n, a i < p.q)
    (lawful : Lawful ops n sk invsk e eAuto) :
    (RotatesRight ops n sk invsk mod sv e eAuto a → 0 < n ∧ (p.q = p.N ∨ ∀ i < n, a i = 0)) ∧
    (2 * n < int32 mod →
      (RotatesRight ops n sk invsk mod sv e eAuto a ↔
        0 < n ∧ (p.q = p.N ∨ ∀ i < n, a i = 0) ∧ ∑ i ∈ Finset.range n, int32 (sv i) < 2 ^ 31)) := by
  obtain ⟨v, inv⟩ := exists_inverses ok ha
  refine ⟨eq_or_zero_of_rotatesRight ok ha, fun room => ⟨fun right => ?_, fun ⟨pos, agree, fits⟩ => ?_⟩⟩
  · obtain ⟨pos, agree⟩ := eq_or_zero_of_rotatesRight ok ha right
    obtain ⟨ek, -, keys, -⟩ := right
    rw [keyGenAcc, if_neg pos.ne'] at keys
    obtain ⟨_, _, keys⟩ := Run.bind_ok keys
    obtain ⟨sums, run, _⟩ := Run.bind_ok keys
    exact ⟨pos, agree, sum_lt_of_ok ternary (by omega) run⟩
  · have keyed : Keyed p n a v := agree.elim (fun same => keyed_of_eq ok same ha inv) fun zero => keyed_of_zero ok zero inv
    obtain ⟨ek, keys, performs⟩ := keyGenAcc_performs ternary lawful pos short room fits
    refine ⟨ek, _, keys, inv.calls_eq ok, (keyed_iff_calls ok inv (inv.calls_eq ok)).mp keyed, fun polym => ?_⟩
    obtain ⟨start, acc, first, run, phase⟩ := evalAcc_phase ok ha inv performs pos keyed polym
    exact ⟨start, acc, first, run, by rw [phase, exponents_sum ok ha]⟩

end Rotation

/-! ### Products that read their keys -/

section Reading
variable {p : VectorNTRUCryptoParams} [NeZero p.N] {n : ℕ} {sk invsk : Poly p} {row : Fin (p.digitsG - 1)} {u : ZMod p.Q}

/-- Takes what a key without noise holds from one row, where `u` is the inverse of its power of the base. -/
def readingOps (row : Fin (p.digitsG - 1)) (u : ZMod p.Q) : Operations p where
  addToAcc key acc := acc * (const u * key row)
  automorphism t key acc := substPow t acc * (const u * key row)

theorem marker_within {m : ℤ} (small : |m| < p.N) : (marker p.N m).Within p.N := by
  have pos : (0 : ℤ) < p.N := by exact_mod_cast Nat.pos_of_ne_zero (NeZero.ne p.N)
  have nonneg := Int.emod_nonneg m pos.ne'
  have below := Int.emod_lt_of_pos m pos
  have inside : (m % p.N).toNat < p.N := by omega
  rw [marker_eq small]
  split <;> exact inside

theorem readingOps_lawful (inverse : sk * invsk = 1) (unit : u * gpow p (row + 1) = 1) :
    Lawful (readingOps row u) n sk invsk (fun _ _ => 0) fun _ _ => 0 := by
  have held : (const u * const (gpow p (row + 1)) : Poly p) = 1 := by
    ext i
    rw [coeff_const_mul, coeff_const, coeff_one, mul_ite, unit, mul_zero]
  refine ⟨fun m small acc => ?_, fun i _ _ m small acc => ?_, fun position _ t odd acc => ?_⟩
  · simp only [readingOps, kdmKeyGenXZDDF, Marker.apply_eq (marker_within small), zero_add]
    linear_combination acc * (marker p.N m).poly * (sk * invsk * held + inverse)
  · simp only [readingOps, keyGenXZDDF, Marker.apply_eq (marker_within small), zero_add, zero_mul]
    linear_combination acc * sk * (marker p.N m).poly * held
  · simp only [readingOps, keyGenAuto, NativePoly.times_eq, zero_add, substPow_mul odd]
    linear_combination substPow t acc * substPow t sk * (sk * invsk * held + inverse)

end Reading

/-- `N = 8`, `Q = 17`, one row in base four, for ciphertexts modulo `q`. -/
def smallParams (q : ℕ) : VectorNTRUCryptoParams :=
  { RingGSWCryptoParams.default with
    N := 8, Q := 17, q := q, baseG := 4, digitsG := 2, Gpower := [1, 4], baseR := 2, method := .MKNTRU }

instance (q : ℕ) : NeZero (smallParams q).N := ⟨show 8 ≠ 0 by decide⟩

theorem smallParams_suitable {q : ℕ} (divides : q ∣ 8) : Suitable (smallParams q) :=
  ⟨⟨3, rfl⟩, show 2 * 8 < 2 ^ 32 by norm_num, divides⟩

def smallOps (q : ℕ) : Operations (smallParams q) := readingOps ⟨0, Nat.one_pos⟩ (13 : ℕ)

theorem smallOps_lawful (q n : ℕ) : Lawful (smallOps q) n 1 1 (fun _ _ => 0) fun _ _ => 0 :=
  readingOps_lawful (mul_one 1) (show (13 * (4 : ℕ) : ZMod 17) = 1 by decide)

/-- `RotatesRight` for the secret one modulo four and the vector with the one entry one. -/
abbrev SmallRotatesRight (q : ℕ) : Prop :=
  RotatesRight (smallOps q) 1 1 1 4 (fun _ => 1) (fun _ _ => 0) (fun _ _ => 0) fun _ => 1

theorem smallParams_rotatesRight : SmallRotatesRight 8 :=
  ((rotatesRight_iff (smallParams_suitable (dvd_refl 8)) (show 1 < 8 by decide) (fun _ _ => .inr (.inl rfl))
    (fun _ _ => show 1 < 8 by decide) (smallOps_lawful 8 1)).2 (by decide)).mpr
    ⟨Nat.one_pos, .inl rfl, by decide⟩

/-- With `q = 4` the automorphism of the exponent five is looked up at position one, whose key is made for nine. -/
theorem smallParams_not_rotatesRight :
    Suitable (smallParams 4) ∧ Lawful (smallOps 4) 1 1 1 (fun _ _ => 0) (fun _ _ => 0) ∧ ¬ SmallRotatesRight 4 := by
  refine ⟨smallParams_suitable ⟨2, rfl⟩, smallOps_lawful 4 1, fun right => ?_⟩
  obtain ⟨-, same | zero⟩ := eq_or_zero_of_rotatesRight (smallParams_suitable ⟨2, rfl⟩) (fun _ _ => show 1 < 4 by decide) right
  · cases same
  · cases zero 0 Nat.one_pos

end VectorNTRU
end MultiKeyFHE
