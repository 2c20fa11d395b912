import MultiKeyFHE.Params.Scheme
import MultiKeyFHE.Native.Poly
import MultiKeyFHE.Library.Draws
import MultiKeyFHE.Library.Substitution

/-!
# RingGSW encryptions

`KeyGenCGGI`, `KeyGenDM` and `KeyGenLMKCDEY` of the single-key accumulators, as programs over the stream of the
uniform generator. The three differ in what they add to the rows. `tempA` is filled with copies of one polynomial,
so that all rows of a key have the same mask (`ringGSW_own_masks_iff`).
-/

namespace MultiKeyFHE
open Negacyclic NegPoly Draws Sampler

namespace RingGSW
variable (p : RingGSWCryptoParams)

abbrev Poly : Type := NativePoly p.N p.Q

/-- A draw of `NativePoly(dug, polyParams, COEFFICIENT)`. -/
abbrev UniformDraw : Type := Fin p.N → Fin p.Q

def maskOf {p : RingGSWCryptoParams} (v : UniformDraw p) : Poly p := ⟨fun i => (v i : ℕ)⟩

/-- `(GetDigitsG() - 1) << 1`: the first digit is ignored. -/
def digitsG2 : ℕ := (p.digitsG - 1) <<< 1

theorem digitsG2_eq : digitsG2 p = 2 * (p.digitsG - 1) := by
  rw [digitsG2, Nat.shiftLeft_eq, pow_one, mul_comm]

def gpow (i : ℕ) : ZMod p.Q := (p.Gpower.getD i 0 : ℕ)

/-- What a key generator does with a power of the gadget base: nothing, `ModAddFastEq` or `ModSubFastEq` at one
coefficient. -/
inductive Marker where
  | none
  | add (index : ℕ)
  | sub (index : ℕ)
  deriving DecidableEq, Repr

namespace Marker
variable {N Q : ℕ}

def apply : Marker → ZMod Q → NativePoly N Q → NativePoly N Q
  | none, _, a => a
  | add index, g, a => ⟨fun i => if i.val = index then a.coeff i + g else a.coeff i⟩
  | sub index, g, a => ⟨fun i => if i.val = index then a.coeff i - g else a.coeff i⟩

/-- The exponent `mm` below `2 * N`, brought below `N` with the other sign. -/
def ofExponent (N mm : ℕ) : Marker := if mm ≥ N then sub (mm - N) else add mm

end Marker

/-- The rows `result[i][0]` and `result[i][1]`, and the mask `tempA[i]` that they were made with. -/
structure EvalKeyRow where
  mask : UniformDraw p
  first : Poly p
  second : Poly p

/-- The loop over the rows for a secret `z` and drawn errors `e`. -/
def encryptRow (marker : Marker) (z : Poly p) (e : ℕ → Poly p) (tempA : UniformDraw p) (i : ℕ) : EvalKeyRow p :=
  let g := gpow p (i / 2 + 1)
  { mask := tempA
    first := if i % 2 = 0 then marker.apply g (maskOf tempA) else maskOf tempA
    second := (if i % 2 = 0 then e i else marker.apply g (e i)) + maskOf tempA * z }

abbrev EvalKey : Type := Fin (digitsG2 p) → EvalKeyRow p

def encrypt (marker : Marker) (z : Poly p) (e : ℕ → Poly p) : Sampler (UniformDraw p) (EvalKey p) := do
  let tempA ← fill (digitsG2 p) draw
  return fun i => encryptRow p marker z e (tempA i) i

def keyGenCGGI (z : Poly p) (e : ℕ → Poly p) (m : ℤ) : Sampler (UniformDraw p) (EvalKey p) :=
  encrypt p (if m ≠ 0 then .add 0 else .none) z e

/-- `mm` of `KeyGenDM`: `q` is unsigned there and the signed `m` is converted before the remainder is taken. -/
def exponentDM (m : ℤ) : ℕ := ((m % 2 ^ 64).toNat % p.q + p.q) % p.q * (2 * p.N % 2 ^ 32 / p.q)

def keyGenDM (z : Poly p) (e : ℕ → Poly p) (m : ℤ) : Sampler (UniformDraw p) (EvalKey p) :=
  encrypt p (.ofExponent p.N (exponentDM p m)) z e

/-- `mm` of `KeyGenLMKCDEY`, where all numbers are signed. -/
def exponentLMKCDEY (m : ℤ) : ℕ := ((m.tmod p.q + p.q) % p.q).toNat * (2 * p.N / p.q)

def keyGenLMKCDEY (z : Poly p) (e : ℕ → Poly p) (m : ℤ) : Sampler (UniformDraw p) (EvalKey p) :=
  encrypt p (.ofExponent p.N (exponentLMKCDEY p m)) z e

/-- A row of an automorphism key. -/
structure AutoKeyRow where
  first : Poly p
  second : Poly p

abbrev AutoKey : Type := Fin (p.digitsG - 1) → AutoKeyRow p

/-- `KeyGenAuto`, over the polynomials that `NativePoly(dug, polyParams, EVALUATION)` draws: here each row has its own.
`AutomorphismTransform` is the substitution of `X ^ k`. -/
def keyGenAuto [NeZero p.N] (z : Poly p) (e : ℕ → Poly p) (k : ℕ) : Sampler (Poly p) (AutoKey p) :=
  forEach (p.digitsG - 1) fun i => do
    let first ← draw
    return { first := first, second := e i - NativePoly.times (gpow p (i + 1)) (substPow k z) + first * z }

variable {p}

/-- The rows of a key have masks of their own, and under a secret that is not zero the difference of two second
components depends on what the uniform generator drew. -/
structure OwnMasks (z : Poly p) (key : Sampler (UniformDraw p) (EvalKey p)) : Prop where
  draws : OwnDraws fun stream i => (value key stream i).mask
  differences : z ≠ 0 → ∀ i i', i ≠ i' → ∀ c,
    ¬ ∀ stream, (value key stream i).second - (value key stream i').second = c

section Masks
variable {marker : Marker} {z : Poly p} {e : ℕ → Poly p}

theorem encrypt_mask (stream : ℕ → UniformDraw p) (i : Fin (digitsG2 p)) :
    (value (encrypt p marker z e) stream i).mask = stream 0 := rfl

/-- The mask cancels in the difference of two second components. -/
theorem encrypt_difference [NeZero p.N] (stream stream' : ℕ → UniformDraw p) (i i' : Fin (digitsG2 p)) :
    (value (encrypt p marker z e) stream i).second - (value (encrypt p marker z e) stream i').second =
      (value (encrypt p marker z e) stream' i).second - (value (encrypt p marker z e) stream' i').second :=
  (add_sub_add_right_eq_sub _ _ _).trans (add_sub_add_right_eq_sub _ _ _).symm

theorem ownMasks_iff (hN : 0 < p.N) (hQ : 1 < p.Q) : OwnMasks z (encrypt p marker z e) ↔ p.digitsG ≤ 1 := by
  have : Nonempty (Fin p.N) := ⟨⟨0, hN⟩⟩
  have : Nontrivial (Fin p.Q) := Fin.nontrivial_iff_two_le.mpr hQ
  have rows := digitsG2_eq p
  constructor
  · intro own
    by_contra many
    have inj := (ownDraws_iff encrypt_mask).mp own.draws
    have same : (⟨0, by omega⟩ : Fin (digitsG2 p)) = ⟨1, by omega⟩ := inj rfl
    cases congrArg Fin.val same
  · intro few
    have none : ∀ _ : Fin (digitsG2 p), False := fun i => by
      have := i.isLt
      omega
    exact ⟨⟨fun _ => 0, fun i => (none i).elim, encrypt_mask⟩, fun _ i => (none i).elim⟩

end Masks

/-- Rows have masks of their own only in a key without rows. -/
theorem ringGSW_own_masks_iff (hN : 0 < p.N) (hQ : 1 < p.Q) (z : Poly p) (e : ℕ → Poly p) (m : ℤ) :
    (OwnMasks z (keyGenCGGI p z e m) ↔ p.digitsG ≤ 1) ∧
    (OwnMasks z (keyGenDM p z e m) ↔ p.digitsG ≤ 1) ∧
    (OwnMasks z (keyGenLMKCDEY p z e m) ↔ p.digitsG ≤ 1) :=
  ⟨ownMasks_iff hN hQ, ownMasks_iff hN hQ, ownMasks_iff hN hQ⟩

/-- `N = 2`, `Q = 17` and three digits in base four: four rows. -/
def smallParams : RingGSWCryptoParams :=
  { RingGSWCryptoParams.default with
    N := 2, Q := 17, q := 4, baseG := 4, digitsG := 3, Gpower := [1, 4, 16], baseR := 2, method := .GINX }

theorem smallParams_shared_masks :
    ¬ OwnMasks 1 (keyGenCGGI smallParams 1 (fun _ => 0) 1) ∧ ¬ OwnMasks 1 (keyGenDM smallParams 1 (fun _ => 0) 1) ∧
      ¬ OwnMasks 1 (keyGenLMKCDEY smallParams 1 (fun _ => 0) 1) := by
  have fails : ∀ marker, ¬ OwnMasks 1 (encrypt smallParams marker 1 fun _ => 0) := by
    intro marker
    rw [ownMasks_iff (by decide) (by decide)]
    decide
  exact ⟨fails _, fails _, fails _⟩

theorem smallParams_own_masks :
    0 < smallParams.N ∧ 1 < smallParams.Q ∧
      (OwnMasks 1 (keyGenCGGI smallParams 1 (fun _ => 0) 1) ↔ smallParams.digitsG ≤ 1) :=
  ⟨by decide, by decide, (ringGSW_own_masks_iff (by decide) (by decide) 1 (fun _ => 0) 1).1⟩

end RingGSW
end MultiKeyFHE
