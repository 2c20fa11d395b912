import MultiKeyFHE.Accumulator.Noise
import MultiKeyFHE.Accumulator.XZDDF

/-!
# Rotations over vector NTRU with noisy keys

The bodies of `AddToAccXZDDF` and `Automorphism`. The first product makes an encryption of a polynomial, so that what its
digits ignore is not multiplied by the secret; every later call is as noisy as an automorphism of `RingGSW`.
-/

namespace MultiKeyFHE
open Negacyclic NegPoly NativePoly NativeInteger SignedDigits

namespace VectorNTRU
open RingGSW (Poly Marker gpow addProducts addProductsInPlace addProductsInPlace_eq addProducts_all recompose Covers lossBound
  automorphismBound automorphismBound_nonneg int32)
open NativeVector (centered)
variable {p : VectorNTRUCryptoParams} [NeZero p.N]

/-- `dct`, of a ring element. -/
def decompose (ct : Poly p) (d : Fin (p.digitsG - 1)) : Poly p := signedDigitDecompose (ctz p.baseG) ct d

def addToAccXZDDF (ek : EvalKey p) (acc : Poly p) : Poly p := addProductsInPlace (decompose acc) ek 0 (List.finRange _)

def automorphism (a : ℕ) (ak : EvalKey p) (acc : Poly p) : Except Fault (Poly p) := do
  let k := a % 2 ^ 32
  if k % 2 = 0 then throw (.mathError "Automorphism index not odd\n")
  return addProducts (decompose (substPow k acc)) ak 0 (List.finRange _)

/-- A call of `EvalAcc` with these bodies. -/
def performCall {n : ℕ} (ek : AccKey p n) (acc : Poly p) : Call → Except Fault (Poly p)
  | .addToAcc index => do return addToAccXZDDF (← readKey ek.eval index) acc
  | .automorphism a position => do automorphism a (← readKey ek.auto position) acc

/-- `EvalAcc` with these bodies. -/
def evalAccCalls {n : ℕ} (ek : AccKey p n) (acc : Poly p) (a : ℕ → ℕ) : Except Fault (Poly p) := do
  let calls ← calls p n a
  calls.foldlM (performCall ek) acc

/-! ### One call -/

theorem addToAccXZDDF_eq (ek : EvalKey p) (acc : Poly p) : addToAccXZDDF ek acc = ∑ d, decompose acc d * ek d := by
  rw [addToAccXZDDF, addProductsInPlace_eq _ _ (List.nodup_finRange _) fun _ _ => rfl, addProducts_all, zero_add]

theorem sum_decompose (c f : Poly p) : ∑ d, decompose c d * (const (gpow p (d + 1)) * f) = recompose c * f := by
  rw [recompose, Finset.sum_range, Finset.sum_mul]
  refine Finset.sum_congr rfl fun d _ => ?_
  rw [decompose]
  ring

variable (p) in
/-- What the first product adds, for errors up to `E`. -/
def firstBound (g : ℕ) (E : ℝ) : ℝ := lossBound p g + (p.digitsG - 1 : ℕ) * (p.N * ((2 ^ (g - 1) : ℕ) * E))

section Calls
variable {g : ℕ} (covers : Covers p g) {sk invsk : Poly p} (inverse : sk * invsk = 1) {S E : ℝ} (secret : Bounded S sk)
  {e : ℕ → Poly p} (small : ∀ d, Bounded E (e d))

include covers small in
/-- The errors of a key enter through the digits. -/
theorem errors_bounded (c : Poly p) :
    Bounded ((p.digitsG - 1 : ℕ) * (p.N * ((2 ^ (g - 1) : ℕ) * E))) (∑ d, decompose c d * e d) := by
  have := covers.neZero
  exact Bounded.sum_fin fun d => (covers.digit_small c d).mul (small d)

include covers inverse small in
theorem addToAccXZDDF_first {m : ℤ} (inside : |m| < p.N) (acc : Poly p) :
    Bounded (firstBound p g E) (addToAccXZDDF (kdmKeyGenXZDDF p invsk e m) acc * sk - acc * xpow m) := by
  have := covers.neZero
  have rows : ∀ d, decompose acc d * kdmKeyGenXZDDF p invsk e m d * sk =
      decompose acc d * e d + decompose acc d * (const (gpow p (d + 1)) * xpow m) := by
    intro d
    rw [kdmKeyGenXZDDF, Marker.apply_eq (marker_within inside), marker_poly inside]
    linear_combination (decompose acc d * (e d + const (gpow p (d + 1)) * xpow m)) * inverse
  have split : addToAccXZDDF (kdmKeyGenXZDDF p invsk e m) acc * sk - acc * xpow m =
      -((acc - recompose acc) * xpow m) + ∑ d, decompose acc d * e d := by
    rw [addToAccXZDDF_eq, Finset.sum_mul, Finset.sum_congr rfl fun d _ => rows d, Finset.sum_add_distrib, sum_decompose]
    ring
  rw [split]
  exact ((covers.recompose_near acc).mul_xpow m).neg.add (errors_bounded covers small acc)

include covers inverse secret small in
theorem addToAccXZDDF_later {m : ℤ} (inside : |m| < p.N) (acc : Poly p) :
    Bounded (automorphismBound p g S E) (addToAccXZDDF (keyGenXZDDF p invsk e m) acc * sk - acc * sk * xpow m) := by
  have := covers.neZero
  have rows : ∀ d, decompose acc d * keyGenXZDDF p invsk e m d * sk =
      decompose acc d * e d + decompose acc d * (const (gpow p (d + 1)) * (xpow m * sk)) := by
    intro d
    rw [keyGenXZDDF, Marker.apply_eq (marker_within inside), marker_poly inside, zero_add]
    linear_combination decompose acc d * e d * inverse
  have split : addToAccXZDDF (keyGenXZDDF p invsk e m) acc * sk - acc * sk * xpow m =
      -((acc - recompose acc) * sk * xpow m) + ∑ d, decompose acc d * e d := by
    rw [addToAccXZDDF_eq, Finset.sum_mul, Finset.sum_congr rfl fun d _ => rows d, Finset.sum_add_distrib, sum_decompose]
    ring
  rw [split]
  convert (((covers.recompose_near acc).mul secret).mul_xpow m).neg.add (errors_bounded covers small acc) using 1
  rw [automorphismBound]
  ring

include covers inverse secret small in
theorem automorphism_near (ok : Suitable p) {t : ℕ} (odd : t % 2 = 1) (acc : Poly p) :
    ∃ next, automorphism t (keyGenAuto p sk invsk e t) acc = .ok next ∧
      Bounded (automorphismBound p g S E) (next * sk - substPow t (acc * sk)) := by
  have := covers.neZero
  have word : t % 2 ^ 32 ≡ t [MOD 2 * p.N] := Nat.mod_mod_of_dvd t ok.word
  have coprime : t.Coprime p.N := (ok.coprime_of_odd odd).coprime_mul_left_right
  have run : automorphism t (keyGenAuto p sk invsk e t) acc =
      .ok (∑ d, decompose (substPow t acc) d * keyGenAuto p sk invsk e t d) := by
    rw [automorphism, if_neg (by omega), substPow_congr word, addProducts_all, zero_add]
    rfl
  refine ⟨_, run, ?_⟩
  have rows : ∀ d, decompose (substPow t acc) d * keyGenAuto p sk invsk e t d * sk =
      decompose (substPow t acc) d * e d + decompose (substPow t acc) d * (const (gpow p (d + 1)) * substPow t sk) := by
    intro d
    rw [keyGenAuto, NativePoly.times_eq]
    linear_combination decompose (substPow t acc) d * (e d + const (gpow p (d + 1)) * substPow t sk) * inverse
  have split : (∑ d, decompose (substPow t acc) d * keyGenAuto p sk invsk e t d) * sk - substPow t (acc * sk) =
      -((substPow t acc - recompose (substPow t acc)) * substPow t sk) + ∑ d, decompose (substPow t acc) d * e d := by
    rw [Finset.sum_mul, Finset.sum_congr rfl fun d _ => rows d, Finset.sum_add_distrib, sum_decompose, substPow_mul odd]
    ring
  rw [split]
  convert (((covers.recompose_near (substPow t acc)).mul (secret.substPow coprime)).neg).add
    (errors_bounded covers small (substPow t acc)) using 1
  rw [automorphismBound]
  ring

end Calls

/-! ### The whole rotation -/

section Run
variable {n : ℕ} {sk invsk : Poly p} {ek : AccKey p n} {mu : ℕ → ℤ} {δ₀ δ : ℝ}

/-- What the calls with the keys in `ek` do up to `δ₀` for the first product and `δ` for the others. -/
structure PerformsNear (ek : AccKey p n) (sk : Poly p) (mu : ℕ → ℤ) (δ₀ δ : ℝ) : Prop where
  product : ∀ i ≤ n, ∀ acc, ∃ next, performCall ek acc (.addToAcc i) = .ok next ∧
    Bounded (if i = 0 then δ₀ else δ) (next * sk - seen sk i acc * xpow (mu i))
  automorphism : ∀ position < p.q - 1, autoExponent p position % 2 = 1 → ∀ acc,
    ∃ next, performCall ek acc (.automorphism (autoExponent p position) position) = .ok next ∧
      Bounded δ (next * sk - substPow (autoExponent p position) (acc * sk))

/-- The first product and a pair of calls for every later coordinate. -/
def drift (δ₀ δ : ℝ) : ℕ → ℝ
  | 0 => 0
  | i + 1 => δ₀ + (2 * i + 1) * δ

omit [NeZero p.N] in
theorem drift_succ (δ₀ : ℝ) (nonneg : 0 ≤ δ) (i : ℕ) :
    drift δ₀ δ i + (if i = 0 then δ₀ else δ) ≤ drift δ₀ δ (i + 1) ∧
      drift δ₀ δ i + (if i = 0 then δ₀ else δ) + δ ≤ drift δ₀ δ (i + 1) := by
  cases i with
  | zero =>
    simp only [drift, if_true]
    constructor <;> norm_num
    exact nonneg
  | succ i =>
    simp only [drift, if_neg (Nat.succ_ne_zero i)]
    push_cast
    constructor <;> linarith

variable (ok : Suitable p) {a v : ℕ → ℕ} (ha : ∀ i < n, a i < p.q) (inv : Inverses p n a v) (nonneg : 0 ≤ δ)
  (performs : PerformsNear ek sk mu δ₀ δ)
include ok ha inv nonneg performs

theorem phase_rounds_near [NeZero p.Q] (keyed : Keyed p n a v) (polym : Poly p) {i : ℕ} (hi : i ≤ n) :
    ∃ acc, ((List.range i).flatMap (round p a v)).foldlM (performCall ek) (substPow (v 0) polym) = .ok acc ∧
      Bounded (drift δ₀ δ i)
        (seen sk i acc - substPow (v i) (polym * xpow (∑ m ∈ Finset.range i, mu m * wOf p (a m)))) := by
  induction i with
  | zero =>
    refine ⟨_, rfl, ?_⟩
    rw [seen, if_pos rfl, Finset.sum_range_zero, xpow_zero, mul_one, sub_self]
    exact bounded_zero
  | succ i ih =>
    obtain ⟨acc, run, before⟩ := ih (by omega)
    obtain ⟨next, product, near⟩ := performs.product i (by omega) acc
    have value := Bounded.rotate before near
    rw [substPow_inverse_mul inv hi, mul_assoc, ← xpow_add, ← Finset.sum_range_succ] at value
    have later : v (i + 1) ≡ turn p a v i * v i [MOD 2 * p.N] := (inv.turn_mul hi).symm
    obtain ⟨stays_le, turns_le⟩ := drift_succ δ₀ nonneg i
    rw [List.range_succ, List.flatMap_append, List.flatMap_singleton, round]
    by_cases stays : turn p a v i = 1
    · rw [stays, one_mul] at later
      refine ⟨next, Run.foldlM_append_ok run (Run.foldlM_cons_ok product ?_), ?_⟩
      · rw [if_neg (not_not_intro stays)]
        rfl
      · rw [seen, if_neg i.succ_ne_zero, substPow_congr later]
        exact value.mono stays_le
    · obtain ⟨inside, exponent⟩ := keyed i hi stays
      have odd := inv.turn_odd ok ha hi
      have coprime : (turn p a v i).Coprime p.N := (ok.coprime_of_odd odd).coprime_mul_left_right
      obtain ⟨last, turned, rotated⟩ := performs.automorphism _ inside (by rwa [exponent]) next
      rw [exponent] at turned rotated
      refine ⟨last, Run.foldlM_append_ok run (Run.foldlM_cons_ok product ?_), ?_⟩
      · rw [if_pos stays]
        exact Run.foldlM_cons_ok turned rfl
      · have moved := value.substPow coprime
        rw [substPow_sub, substPow_substPow odd, ← substPow_congr later] at moved
        have total := rotated.add moved
        rw [sub_add_sub_cancel] at total
        rw [seen, if_neg i.succ_ne_zero]
        exact total.mono (by linarith)

/-- Up to `2n` errors of later calls and that of the first product, the rounds undo the automorphism and the last key
removes the sum of the messages. -/
theorem evalAccCalls_phase [NeZero p.Q] (pos : 0 < n) (keyed : Keyed p n a v) (polym : Poly p) :
    ∃ start acc, polym2 polym a = .ok start ∧ evalAccCalls ek start a = .ok acc ∧
      Bounded (δ₀ + 2 * n * δ) (acc * sk - polym * xpow (∑ m ∈ Finset.range n, mu m * wOf p (a m) + mu n)) := by
  obtain ⟨acc, run, before⟩ := phase_rounds_near ok ha inv nonneg performs keyed polym le_rfl
  obtain ⟨last, product, near⟩ := performs.product n le_rfl acc
  refine ⟨substPow (v 0) polym, last, ?_, ?_, ?_⟩
  · rw [polym2, inv.run 0 pos]
    rfl
  · rw [evalAccCalls, inv.calls_eq ok]
    exact Run.foldlM_append_ok run (Run.foldlM_cons_ok product rfl)
  · have total := Bounded.rotate before near
    rw [inv.last, substPow_one, mul_assoc, ← xpow_add] at total
    refine total.mono ?_
    obtain ⟨m, rfl⟩ := Nat.exists_eq_succ_of_ne_zero pos.ne'
    simp only [drift, if_neg (Nat.succ_ne_zero m)]
    push_cast
    linarith

end Run

section Generated
variable {n g : ℕ} {sk invsk : Poly p} {S E : ℝ} {e eAuto : ℕ → ℕ → Poly p} (covers : Covers p g) (ok : Suitable p)
  (inverse : sk * invsk = 1) (secret : Bounded S sk) (small : ∀ i d, Bounded E (e i d)) (smallAuto : ∀ i d, Bounded E (eAuto i d))
include covers ok inverse secret small smallAuto

theorem accKey_performsNear (messages : ℕ → ℤ) {sums : ℤ} {mu : ℕ → ℤ} (inside : ∀ i, |mu i| < p.N) (pos : 0 < n)
    (before : ∀ i < n, messages i = mu i) (last : sums = mu n) :
    PerformsNear (accKey n sk invsk messages sums e eAuto) sk mu (firstBound p g E) (automorphismBound p g S E) where
  product i hi acc := by
    have place : i < max (p.q - 1) (n + 1) := by omega
    rcases i.eq_zero_or_pos with rfl | positive
    · refine ⟨addToAccXZDDF (kdmKeyGenXZDDF p invsk (e 0) (mu 0)) acc, ?_, ?_⟩
      · rw [performCall, readKey, dif_pos place, ← before 0 pos]
        rfl
      · rw [seen, if_pos rfl, if_pos rfl]
        exact addToAccXZDDF_first covers inverse (small 0) (inside 0) acc
    · have read : readKey (accKey n sk invsk messages sums e eAuto).eval i = .ok (keyGenXZDDF p invsk (e i) (mu i)) := by
        rw [readKey, dif_pos place]
        rcases hi.lt_or_eq with hi | rfl
        · simp only [accKey, if_neg positive.ne', if_pos hi, before i hi]
        · simp only [accKey, if_neg positive.ne', if_neg (lt_irrefl i), if_true, last]
      refine ⟨addToAccXZDDF (keyGenXZDDF p invsk (e i) (mu i)) acc, ?_, ?_⟩
      · rw [performCall, read]
        rfl
      · rw [seen, if_neg positive.ne', if_neg positive.ne']
        exact addToAccXZDDF_later covers inverse secret (small i) (inside i) acc
  automorphism position hp odd acc := by
    have place : position < max (p.q - 1) (n + 1) := by omega
    obtain ⟨next, run, near⟩ := automorphism_near covers inverse secret (smallAuto position) ok odd acc
    refine ⟨next, ?_, near⟩
    rw [performCall, readKey, dif_pos place]
    simp only [accKey, if_pos hp]
    exact run

section Rotation
variable [NeZero p.Q] (nonneg : 0 ≤ E) {mod : ℕ} {sv a : ℕ → ℕ} (pos : 0 < n) (short : n < p.N)
  (ternary : ∀ i < n, Ternary mod (sv i)) (room : 2 * n < int32 mod) (fits : ∑ i ∈ Finset.range n, int32 (sv i) < 2 ^ 31)
  (ha : ∀ i < n, a i < p.q)
include nonneg pos short ternary room fits ha

theorem keyGenAcc_near {ek : AccKey p n} (made : keyGenAcc n sk invsk mod sv e eAuto = .ok ek) {v : ℕ → ℕ}
    (inv : Inverses p n a v) (keyed : Keyed p n a v) (polym : Poly p) :
    ∃ start acc, polym2 polym a = .ok start ∧ evalAccCalls ek start a = .ok acc ∧
      Bounded (firstBound p g E + 2 * n * automorphismBound p g S E)
        (acc * sk - polym * xpow (-((2 * p.N / p.q : ℕ) * ∑ i ∈ Finset.range n, a i * centered mod (sv i)))) := by
  have wide : 2 < int32 mod := by omega
  rw [keyGenAcc_eq ternary pos room fits] at made
  obtain rfl := Except.ok.inj made
  have performs := accKey_performsNear covers ok inverse secret small smallAuto (n := n)
    (((List.range n).map (exponentAt n mod sv)).getD · 0) (exponentAt_small ternary short wide) pos
    (fun i hi => by simp [hi]) (show ∑ i ∈ Finset.range n, centered mod (sv i) = exponentAt n mod sv n by
      rw [exponentAt, if_neg (lt_irrefl n)])
  obtain ⟨start, acc, first, run, near⟩ :=
    evalAccCalls_phase ok ha inv (automorphismBound_nonneg secret nonneg) performs pos keyed polym
  rw [exponents_sum ok ha] at near
  exact ⟨start, acc, first, run, near⟩

end Rotation
end Generated

/-- The ring of dimension 64 with `q = N`. -/
def smallNTRU : VectorNTRUCryptoParams := { RingGSW.smallRing with q := 64, method := .MKNTRU }

instance : NeZero smallNTRU.N := ⟨by decide⟩
instance : NeZero smallNTRU.Q := ⟨by decide⟩

theorem smallNTRU_covers : Covers smallNTRU 7 :=
  ⟨rfl, by decide, by decide, by decide, RingGSW.smallRing_covers.powers, by decide, by decide⟩

end VectorNTRU
end MultiKeyFHE
