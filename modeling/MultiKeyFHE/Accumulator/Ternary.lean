import MultiKeyFHE.Accumulator.Rotation

/-!
# Ternary accumulator

`UniEncAccumulatorXZW`: two keys for each secret coefficient, one for `1` and one for `-1`. The first
coefficient of the first party has keys of the other kind and an update of its own.
-/

namespace MultiKeyFHE
open Negacyclic NegPoly UniEncCryptoParams

namespace UniEncAccumulatorXZW
open UniEncAccumulator
variable {w : NativeSize} {p : UniEncParams w} {n : ℕ} [NeZero n]

variable (p n) in
/-- The accumulator key: `(*ek)[u][0][i]`, `(*ek)[u][1][i]` and the extra entry `(*ek)[0][0][n]`. -/
structure AccKey where
  pos : Fin p.k → Fin n → EvalKey p
  neg : Fin p.k → Fin n → EvalKey p
  star : EvalKey p

variable (p n) in
structure AccDraws where
  pos : Fin p.k → Fin n → KeyDraws p
  neg : Fin p.k → Fin n → KeyDraws p
  star : KeyDraws p

/-- `KeyGenAcc` for first key columns `sv` of modulus `qKS`. -/
def keyGenAcc (draws : AccDraws p n) (invsk : Acc p) (sv : Fin p.k → Fin n → ℕ) (qKS : ℕ)
    (CRS : Digit p → Poly p) : AccKey p n :=
  let neg := qKS - 1
  { pos := fun u i =>
      if u = 0 ∧ i = 0 then kdmKeyGenXZW p (draws.pos u i) (invsk u) CRS (if sv u i = 1 then 1 else 0)
      else keyGenXZW p (draws.pos u i) (invsk u) CRS (if sv u i = 1 then 1 else 0)
    neg := fun u i =>
      if u = 0 ∧ i = 0 then kdmKeyGenXZW p (draws.neg u i) (invsk u) CRS (if sv u i = neg then 1 else 0)
      else keyGenXZW p (draws.neg u i) (invsk u) CRS (if sv u i = neg then 1 else 0)
    star := kdmKeyGenXZW p draws.star (invsk 0) CRS 1 }

def addToAccXZW (hb : Product p) (ek1 ek2 : EvalKey p) (c : ℕ) (index : Fin p.k) (acc : Acc p) :
    Except Fault (Acc p) := do
  let monomial ← monomialAt p c
  let monomialNeg ← monomialAt p (indexNeg p c)
  let key : EvalKey p :=
    { d := fun i => ek1.d i - ek2.d i * monomialNeg - ek2.d i
      f := fun i => ek1.f i - ek2.f i * monomialNeg - ek2.f i }
  let acctemp := hb key index fun u => acc u * monomial
  return fun u => acc u + acctemp u

def addToAccXZW0 (hb : Product p) (ekstar ek1 ek2 : EvalKey p) (c : ℕ) (index : Fin p.k) (acc : Acc p) :
    Except Fault (Acc p) := do
  let monomial ← monomialAt p c
  let monomialNeg ← monomialAt p (indexNeg p c)
  let key : EvalKey p :=
    { d := fun i => ekstar.d i + ek1.d i * monomial + ek2.d i * monomialNeg
      f := fun i => ekstar.f i + ek1.f i * monomial + ek2.f i * monomialNeg }
  return hb key index acc

def evalAccStep (hb : Product p) (ek : AccKey p n) (mod : ℕ) (ct : Fin p.k → Fin n → ℕ) (acc : Acc p)
    (x : Fin p.k × Fin n) : Except Fault (Acc p) :=
  let c := scaledIndex w p.N mod (ct x.1 x.2)
  if x.1 = 0 ∧ x.2 = 0 then addToAccXZW0 hb ek.star (ek.pos x.1 x.2) (ek.neg x.1 x.2) c x.1 acc
  else addToAccXZW hb (ek.pos x.1 x.2) (ek.neg x.1 x.2) c x.1 acc

def evalAcc (hb : Product p) (ek : AccKey p n) (mod : ℕ) (acc : Acc p) (ct : Fin p.k → Fin n → ℕ) :
    Except Fault (Acc p) := (Run.gridIndices p.k n).foldlM (evalAccStep hb ek mod ct) acc

/-! ### Ternary secrets -/

def signed (qKS s : ℕ) : ℤ := if s = 1 then 1 else if s = qKS - 1 then -1 else 0

def posBit (s : ℕ) : ℤ := if s = 1 then 1 else 0
def negBit (qKS s : ℕ) : ℤ := if s = qKS - 1 then 1 else 0

theorem posBit_bit (s : ℕ) : posBit s = 0 ∨ posBit s = 1 := by
  unfold posBit
  split <;> simp

theorem negBit_bit (qKS s : ℕ) : negBit qKS s = 0 ∨ negBit qKS s = 1 := by
  unfold negBit
  split <;> simp

theorem ternary_cases {qKS s : ℕ} (hq : 3 ≤ qKS) (ternary : s = 0 ∨ s = 1 ∨ s = qKS - 1) :
    (signed qKS s = 0 ∧ posBit s = 0 ∧ negBit qKS s = 0) ∨
    (signed qKS s = 1 ∧ posBit s = 1 ∧ negBit qKS s = 0) ∨
    (signed qKS s = -1 ∧ posBit s = 0 ∧ negBit qKS s = 1) := by
  unfold signed posBit negBit
  rcases ternary with rfl | rfl | rfl
  · left
    simp
    omega
  · right
    left
    simp
    omega
  · right
    right
    simp
    omega

theorem rotation_first {qKS s : ℕ} (hq : 3 ≤ qKS) (ternary : s = 0 ∨ s = 1 ∨ s = qKS - 1) (c : ℤ) :
    (1 + (messageOf (posBit s) * (xpow c - 1) + messageOf (negBit qKS s) * (xpow (-c) - 1)) : Poly p) =
      xpow (c * signed qKS s) := by
  rcases ternary_cases hq ternary with ⟨hs, hpos, hneg⟩ | ⟨hs, hpos, hneg⟩ | ⟨hs, hpos, hneg⟩ <;>
    simp [hs, hpos, hneg, messageOf]

theorem rotation_next {qKS s : ℕ} (hq : 3 ≤ qKS) (ternary : s = 0 ∨ s = 1 ∨ s = qKS - 1) (c : ℤ) :
    (1 + (messageOf (posBit s) + (-(xpow (-c) - 1) - 1) * messageOf (negBit qKS s)) * (xpow c - 1) :
      Poly p) = xpow (c * signed qKS s) := by
  have cancel := xpow_mul_neg (N := p.N) (K := ZMod p.Q) c
  rcases ternary_cases hq ternary with ⟨hs, hpos, hneg⟩ | ⟨hs, hpos, hneg⟩ | ⟨hs, hpos, hneg⟩
  · simp [hs, hpos, hneg, messageOf]
  · simp [hs, hpos, hneg, messageOf]
  · simp only [hs, hpos, hneg, messageOf, if_true, mul_neg, mul_one]
    norm_num
    linear_combination -cancel

/-! ### The assumption on the product -/

/-- The encryptions of party `u` under `KeyGenXZW` with the draws of its keys. -/
inductive Plain (draws : AccDraws p n) (inv : Poly p) (CRS : Digit p → Poly p) (u : Fin p.k) :
    EvalKey p → Poly p → Prop where
  | pos (i : Fin n) {m : ℤ} : m = 0 ∨ m = 1 →
      Plain draws inv CRS u (keyGenXZW p (draws.pos u i) inv CRS m) (messageOf m)
  | neg (i : Fin n) {m : ℤ} : m = 0 ∨ m = 1 →
      Plain draws inv CRS u (keyGenXZW p (draws.neg u i) inv CRS m) (messageOf m)

/-- The encryptions of the first party under `KDMKeyGenXZW` with the draws of its keys. -/
inductive KeyDependent (draws : AccDraws p n) (inv : Poly p) (CRS : Digit p → Poly p) :
    EvalKey p → Poly p → Prop where
  | pos {m : ℤ} : m = 0 ∨ m = 1 →
      KeyDependent draws inv CRS (kdmKeyGenXZW p (draws.pos 0 0) inv CRS m) (messageOf m)
  | neg {m : ℤ} : m = 0 ∨ m = 1 →
      KeyDependent draws inv CRS (kdmKeyGenXZW p (draws.neg 0 0) inv CRS m) (messageOf m)
  | star {m : ℤ} : m = 0 ∨ m = 1 →
      KeyDependent draws inv CRS (kdmKeyGenXZW p draws.star inv CRS m) (messageOf m)

/-- Products with combinations of encryptions multiply the phase by the combined messages, up to `δ`;
for key-dependent encryptions there is the inverse of the first secret besides. -/
structure ProductUpTo (hb : Product p) (sk invsk : Acc p) (CRS : Digit p → Poly p) (draws : AccDraws p n)
    (δ : ℝ) : Prop where
  plain : ∀ u key m, Combination (Plain draws (invsk u) CRS u) key m → MultipliesBy hb sk δ u key m
  keyDependent : ∀ key m, Combination (KeyDependent draws (invsk 0) CRS) key m →
    MultipliesBy hb sk δ 0 key (m * invsk 0)

/-! ### One pass -/

section Pass
variable {hb : Product p} {sk invsk : Acc p} {CRS : Digit p → Poly p} {draws : AccDraws p n} {δ : ℝ}
  {sv : Fin p.k → Fin n → ℕ} {qKS : ℕ}

theorem addToAccXZW0_phase (product : ProductUpTo hb sk invsk CRS draws δ) (inverse : sk 0 * invsk 0 = 1)
    (hq : 3 ≤ qKS) (ternary : sv 0 0 = 0 ∨ sv 0 0 = 1 ∨ sv 0 0 = qKS - 1) (T : Poly p) {c : ℕ}
    (hc : c < 2 * p.N) :
    let ek := keyGenAcc draws invsk sv qKS CRS
    ∃ acc, addToAccXZW0 hb ek.star (ek.pos 0 0) (ek.neg 0 0) c 0 (initial T) = .ok acc ∧
      Bounded δ (phase p sk acc - T * xpow (c * signed qKS (sv 0 0))) := by
  intro ek
  rw [addToAccXZW0, monomialAt_eq hc, monomialAt_indexNeg hc]
  refine ⟨_, rfl, first_phase ?_ inverse T (rotation_first hq ternary c)⟩
  have star : ek.star = kdmKeyGenXZW p draws.star (invsk 0) CRS 1 := rfl
  have pos : ek.pos 0 0 = kdmKeyGenXZW p (draws.pos 0 0) (invsk 0) CRS (posBit (sv 0 0)) := by
    simp [ek, keyGenAcc, posBit]
  have neg : ek.neg 0 0 = kdmKeyGenXZW p (draws.neg 0 0) (invsk 0) CRS (negBit qKS (sv 0 0)) := by
    simp [ek, keyGenAcc, negBit]
  have mult := product.keyDependent _ _ (.add (.base (.star (Or.inr rfl)))
    (.add (.smul (xpow c - 1) (.base (.pos (posBit_bit (sv 0 0)))))
      (.smul (xpow (-c) - 1) (.base (.neg (negBit_bit qKS (sv 0 0)))))))
  rw [star, pos, neg]
  convert mult using 1
  · ext i : 2 <;> simp only [EvalKey.add_d, EvalKey.add_f, EvalKey.smul_d, EvalKey.smul_f] <;> ring
  · rw [show (messageOf 1 : Poly p) = 1 from if_pos rfl]
    ring

theorem addToAccXZW_phase (product : ProductUpTo hb sk invsk CRS draws δ) (hq : 3 ≤ qKS) {u : Fin p.k}
    {i : Fin n} (other : ¬ (u = 0 ∧ i = 0)) (ternary : sv u i = 0 ∨ sv u i = 1 ∨ sv u i = qKS - 1)
    (acc : Acc p) {c : ℕ} (hc : c < 2 * p.N) :
    let ek := keyGenAcc draws invsk sv qKS CRS
    ∃ next, addToAccXZW hb (ek.pos u i) (ek.neg u i) c u acc = .ok next ∧
      Bounded δ (phase p sk next - phase p sk acc * xpow (c * signed qKS (sv u i))) := by
  intro ek
  rw [addToAccXZW, monomialAt_eq hc, monomialAt_indexNeg hc]
  refine ⟨_, rfl, update_phase ?_ acc (rotation_next hq ternary c)⟩
  have pos : ek.pos u i = keyGenXZW p (draws.pos u i) (invsk u) CRS (posBit (sv u i)) := if_neg other
  have neg : ek.neg u i = keyGenXZW p (draws.neg u i) (invsk u) CRS (negBit qKS (sv u i)) := if_neg other
  have mult := product.plain u _ _ (.add (.base (.pos i (posBit_bit (sv u i))))
    (.smul (-(xpow (-c) - 1) - 1) (.base (.neg i (negBit_bit qKS (sv u i))))))
  rw [pos, neg]
  convert mult using 1
  ext i : 2 <;> simp only [EvalKey.add_d, EvalKey.add_f, EvalKey.smul_d, EvalKey.smul_f] <;> ring

/-! ### The whole rotation -/

def exponent (c : Fin p.k → Fin n → ℕ) (F : Fin p.k → Fin n → ℤ) (done : List (Fin p.k × Fin n)) : ℤ :=
  (done.map fun x => (c x.1 x.2 : ℤ) * F x.1 x.2).sum

omit [NeZero n] in
theorem exponent_append (c : Fin p.k → Fin n → ℕ) (F : Fin p.k → Fin n → ℤ) (done : List (Fin p.k × Fin n))
    (u : Fin p.k) (i : Fin n) : exponent c F (done ++ [(u, i)]) = exponent c F done + c u i * F u i := by
  simp [exponent]

/-- Before the first pass the accumulator is the initial one; after that its phase is the rotated test
polynomial up to one `δ` for each pass. -/
def Rotated (sk : Acc p) (T : Poly p) (δ : ℝ) (c : Fin p.k → Fin n → ℕ) (F : Fin p.k → Fin n → ℤ)
    (done : List (Fin p.k × Fin n)) (acc : Acc p) : Prop :=
  if done = [] then acc = initial T
  else Bounded (done.length * δ) (phase p sk acc - T * xpow (exponent c F done))

theorem evalAccStep_rotated (product : ProductUpTo hb sk invsk CRS draws δ) (inverse : sk 0 * invsk 0 = 1)
    (hq : 3 ≤ qKS) (ternary : ∀ u i, sv u i = 0 ∨ sv u i = 1 ∨ sv u i = qKS - 1) {mod : ℕ}
    {ct : Fin p.k → Fin n → ℕ} (inside : ∀ u i, scaledIndex w p.N mod (ct u i) < 2 * p.N) {T : Poly p}
    {done rest : List (Fin p.k × Fin n)} {x : Fin p.k × Fin n} {acc : Acc p}
    (split : done ++ x :: rest = Run.gridIndices p.k n)
    (now : Rotated sk T δ (fun u i => scaledIndex w p.N mod (ct u i)) (fun u i => signed qKS (sv u i))
      done acc) :
    ∃ next, evalAccStep hb (keyGenAcc draws invsk sv qKS CRS) mod ct acc x = .ok next ∧
      Rotated sk T δ (fun u i => scaledIndex w p.N mod (ct u i)) (fun u i => signed qKS (sv u i))
        (done ++ [x]) next := by
  obtain ⟨u, i⟩ := x
  have corner : (u = 0 ∧ i = 0) ↔ done = [] := by
    rw [← Run.gridIndices_corner split, Prod.mk.injEq]
  have notEmpty : done ++ [(u, i)] ≠ [] := by simp
  unfold Rotated at now ⊢
  by_cases first : done = []
  · obtain ⟨rfl, rfl⟩ := corner.mpr first
    rw [if_pos first] at now
    subst first now
    obtain ⟨next, ok, near⟩ := addToAccXZW0_phase product inverse hq (ternary 0 0) T (inside 0 0)
    refine ⟨next, by rw [evalAccStep, if_pos ⟨rfl, rfl⟩, ok], ?_⟩
    rw [if_neg notEmpty]
    simpa [exponent] using near
  · have other := fun h => first (corner.mp h)
    rw [if_neg first] at now
    obtain ⟨next, ok, near⟩ := addToAccXZW_phase product hq other (ternary u i) acc (inside u i)
    refine ⟨next, by rw [evalAccStep, if_neg other, ok], ?_⟩
    have total := rotation_error now near
    rw [mul_assoc, ← xpow_add] at total
    rw [if_neg notEmpty, exponent_append]
    convert total using 1
    push_cast [List.length_append, List.length_singleton]
    ring

end Pass

/-- The keys that `KeyGenAcc` makes rotate `(T, 0, .., 0)` to `T * X ^ E` with
`E = sum floor(ct * 2N / mod) * F`, up to one product error for each coefficient. -/
theorem evalAcc_ternary_phase (p : UniEncParams w) (n : ℕ) [NeZero n] (hb : Product p) (sk invsk : Acc p)
    (inverse : ∀ u, sk u * invsk u = 1) (CRS : Digit p → Poly p) (draws : AccDraws p n) (δ : ℝ)
    (product : ProductUpTo hb sk invsk CRS draws δ) (qKS : ℕ) (hq : 3 ≤ qKS) (sv : Fin p.k → Fin n → ℕ)
    (ternary : ∀ u i, sv u i = 0 ∨ sv u i = 1 ∨ sv u i = qKS - 1) (mod : ℕ) (ct : Fin p.k → Fin n → ℕ)
    (reduced : ∀ u i, ct u i < mod) (noWrap : ∀ u i, ct u i * (2 * p.N) < 2 ^ w.bits) (T : Poly p) :
    let E : ℤ := ∑ u, ∑ i, ((ct u i * (2 * p.N) / mod : ℕ) : ℤ) * signed qKS (sv u i)
    ∃ acc, evalAcc hb (keyGenAcc draws invsk sv qKS CRS) mod (initial T) ct = .ok acc ∧
      Bounded (p.k * n * δ) (phase p sk acc - T * xpow E) ∧ (δ = 0 → phase p sk acc = T * xpow E) := by
  intro E
  have hN : 0 < p.N := Nat.pos_of_ne_zero (NeZero.ne p.N)
  have inside : ∀ u i, scaledIndex w p.N mod (ct u i) < 2 * p.N := fun u i =>
    scaledIndex_lt (reduced u i) (noWrap u i) hN
  obtain ⟨acc, run, last⟩ := Run.foldlM_ok
    (Rotated sk T δ (fun u i => scaledIndex w p.N mod (ct u i)) fun u i => signed qKS (sv u i))
    (by rw [Rotated, if_pos rfl])
    (fun done x rest acc split now => evalAccStep_rotated product (inverse 0) hq ternary inside split now)
  have nonempty : Run.gridIndices p.k n ≠ [] := by
    intro h
    have head := Run.gridIndices_head p.k n
    rw [h] at head
    cases head
  have sum : exponent (fun u i => scaledIndex w p.N mod (ct u i)) (fun u i => signed qKS (sv u i))
      (Run.gridIndices p.k n) = E := by
    rw [exponent, Run.sum_gridIndices p.k n fun u i =>
      (scaledIndex w p.N mod (ct u i) : ℤ) * signed qKS (sv u i)]
    refine Finset.sum_congr rfl fun u _ => Finset.sum_congr rfl fun i _ => ?_
    rw [scaledIndex_eq (noWrap u i) hN]
  rw [Rotated, if_neg nonempty, Run.gridIndices_length, Nat.cast_mul, sum] at last
  refine ⟨acc, run, last, fun zero => ?_⟩
  rw [zero, mul_zero] at last
  exact sub_eq_zero.mp (eq_zero_of_bounded_zero last)

theorem productUpTo_exact {c : ZMod p.Q} (hc : const c * gd p 0 = 1) (sk invsk : Acc p)
    (CRS : Digit p → Poly p) :
    ProductUpTo (exactProduct c) sk invsk CRS (⟨fun _ _ => zeroDraws, fun _ _ => zeroDraws, zeroDraws⟩ :
      AccDraws p n) 0 where
  plain u key m h := exactProduct_multipliesBy hc sk u (h.row fun key m enc => by
    cases enc <;> exact keyGenXZW_zeroDraws _ _ _ _)
  keyDependent key m h := exactProduct_multipliesBy hc sk 0 (by
    have row := h.row (a := gd p 0 * invsk 0) fun key m enc => by
      cases enc <;> (rename_i bit; exact kdmKeyGenXZW_zeroDraws _ _ bit _)
    rw [row]
    ring)

/-- No polynomial modulo `Q` is larger than `Q / 2`, so the product of the code has a bound too. -/
theorem productUpTo_code (Pkey : Fin p.k → Digit p → Poly p) (sk invsk : Acc p) (CRS : Digit p → Poly p)
    (draws : AccDraws p n) : ProductUpTo (codeProduct p Pkey) sk invsk CRS draws (p.Q / 2) where
  plain _ _ _ _ _ := bounded_half _
  keyDependent _ _ _ _ := bounded_half _

/-- Two parties with secrets `(1, -1)` and `(0, 1)` and a ciphertext modulo eight: an exact product rotates by
four, and the product of the code gets through. -/
theorem evalAcc_ternary_phase_two_parties :
    let sv : Fin smallParams.k → Fin 2 → ℕ := ![![1, 4], ![0, 1]]
    let ct : Fin smallParams.k → Fin 2 → ℕ := ![![3, 5], ![7, 6]]
    let ek := keyGenAcc ⟨fun _ _ => zeroDraws, fun _ _ => zeroDraws, zeroDraws⟩ (fun _ => 1) sv 5 fun _ => 0
    (∃ acc, evalAcc (exactProduct 13) ek 8 (initial (mono 2)) ct = .ok acc ∧
      phase smallParams (fun _ => 1) acc = mono 2 * xpow 4) ∧
    ∃ acc, evalAcc (codeProduct smallParams (pkey smallParams (fun _ _ => 0) (fun _ => 0) fun _ => 1)) ek 8
      (initial (mono 2)) ct = .ok acc := by
  intro sv ct ek
  have exact_ : (const 13 * gd smallParams 0 : Poly smallParams) = 1 := by decide +kernel
  have ternary : ∀ u i : Fin 2, sv u i = 0 ∨ sv u i = 1 ∨ sv u i = 5 - 1 := by decide
  have reduced : ∀ u i : Fin 2, ct u i < 8 := by decide
  have noWrap : ∀ u i : Fin 2, ct u i * (2 * 4) < 2 ^ 64 := by decide
  obtain ⟨acc, run, -, phase⟩ := evalAcc_ternary_phase smallParams 2 (exactProduct 13) (fun _ => 1) (fun _ => 1)
    (fun _ => mul_one 1) (fun _ => 0) ⟨fun _ _ => zeroDraws, fun _ _ => zeroDraws, zeroDraws⟩ 0
    (productUpTo_exact exact_ _ _ _) 5 (by decide) sv ternary 8 ct reduced noWrap (mono 2)
  obtain ⟨acc', run', -⟩ := evalAcc_ternary_phase smallParams 2 (codeProduct smallParams _) (fun _ => 1)
    (fun _ => 1) (fun _ => mul_one 1) (fun _ => 0) ⟨fun _ _ => zeroDraws, fun _ _ => zeroDraws, zeroDraws⟩ _
    (productUpTo_code (pkey smallParams (fun _ _ => 0) (fun _ => 0) fun _ => 1) _ _ _ _) 5 (by decide) sv ternary
    8 ct reduced noWrap (mono 2)
  exact ⟨⟨acc, run, (phase rfl).trans (congrArg (mono 2 * xpow ·) (by decide))⟩, acc', run'⟩

end UniEncAccumulatorXZW
end MultiKeyFHE
