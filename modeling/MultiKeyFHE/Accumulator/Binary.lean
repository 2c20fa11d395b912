import MultiKeyFHE.Accumulator.Rotation
import Mathlib.Algebra.BigOperators.ModEq

/-!
# Binary accumulator

`UniEncAccumulatorXZW_B`: one key for each secret coefficient, which says whether the coefficient is one, and
exponents taken from the ciphertext as they are.
-/

namespace MultiKeyFHE
open Negacyclic NegPoly UniEncCryptoParams

namespace UniEncAccumulatorXZW_B
open UniEncAccumulator
variable {w : NativeSize} {p : UniEncParams w} {n : ℕ} [NeZero n]

variable (p n) in
/-- The accumulator key: `(*ek)[u][0][i]` and the extra entry `(*ek)[0][0][n]`. -/
structure AccKey where
  pos : Fin p.k → Fin n → EvalKey p
  star : EvalKey p

variable (p n) in
structure AccDraws where
  pos : Fin p.k → Fin n → KeyDraws p
  star : KeyDraws p

/-- `KeyGenAcc`, the same for the first columns of an MNTRU key and for an MKLWE key. -/
def keyGenAcc (draws : AccDraws p n) (invsk : Acc p) (sv : Fin p.k → Fin n → ℕ) (CRS : Digit p → Poly p) :
    AccKey p n :=
  { pos := fun u i =>
      if u = 0 ∧ i = 0 then kdmKeyGenXZW p (draws.pos u i) (invsk u) CRS (if sv u i = 1 then 1 else 0)
      else keyGenXZW p (draws.pos u i) (invsk u) CRS (if sv u i = 1 then 1 else 0)
    star := kdmKeyGenXZW p draws.star (invsk 0) CRS 1 }

def addToAccXZW (hb : Product p) (ek1 : EvalKey p) (c : ℕ) (index : Fin p.k) (acc : Acc p) :
    Except Fault (Acc p) := do
  let monomial ← monomialAt p c
  let acctemp := hb { d := ek1.d, f := ek1.f } index fun u => acc u * monomial
  return fun u => acc u + acctemp u

def addToAccXZW0 (hb : Product p) (ekstar ek1 : EvalKey p) (c : ℕ) (index : Fin p.k) (acc : Acc p) :
    Except Fault (Acc p) := do
  let monomial ← monomialAt p c
  let key : EvalKey p :=
    { d := fun i => ekstar.d i + ek1.d i * monomial
      f := fun i => ekstar.f i + ek1.f i * monomial }
  return hb key index acc

def evalAccStep (hb : Product p) (ek : AccKey p n) (ct : Fin p.k → Fin n → ℕ) (acc : Acc p) (x : Fin p.k × Fin n) :
    Except Fault (Acc p) :=
  if x.1 = 0 ∧ x.2 = 0 then addToAccXZW0 hb ek.star (ek.pos x.1 x.2) (ct x.1 x.2) x.1 acc
  else addToAccXZW hb (ek.pos x.1 x.2) (ct x.1 x.2) x.1 acc

def evalAcc (hb : Product p) (ek : AccKey p n) (acc : Acc p) (ct : Fin p.k → Fin n → ℕ) : Except Fault (Acc p) :=
  (Run.gridIndices p.k n).foldlM (evalAccStep hb ek ct) acc

/-! ### The assumption on the product -/

inductive Plain (draws : AccDraws p n) (inv : Poly p) (CRS : Digit p → Poly p) (u : Fin p.k) :
    EvalKey p → Poly p → Prop where
  | pos (i : Fin n) {m : ℤ} : m = 0 ∨ m = 1 →
      Plain draws inv CRS u (keyGenXZW p (draws.pos u i) inv CRS m) (messageOf m)

inductive KeyDependent (draws : AccDraws p n) (inv : Poly p) (CRS : Digit p → Poly p) :
    EvalKey p → Poly p → Prop where
  | pos {m : ℤ} : m = 0 ∨ m = 1 →
      KeyDependent draws inv CRS (kdmKeyGenXZW p (draws.pos 0 0) inv CRS m) (messageOf m)
  | star {m : ℤ} : m = 0 ∨ m = 1 →
      KeyDependent draws inv CRS (kdmKeyGenXZW p draws.star inv CRS m) (messageOf m)

/-- Products with combinations of encryptions multiply the phase by the combined messages; for key-dependent
encryptions there is the inverse of the first secret besides. -/
structure ExactFor (hb : Product p) (sk invsk : Acc p) (CRS : Digit p → Poly p) (draws : AccDraws p n) : Prop where
  plain : ∀ u key m, Combination (Plain draws (invsk u) CRS u) key m → MultipliesBy hb sk 0 u key m
  keyDependent : ∀ key m, Combination (KeyDependent draws (invsk 0) CRS) key m →
    MultipliesBy hb sk 0 0 key (m * invsk 0)

/-! ### The rotation -/

def keyBit (s : ℕ) : ℤ := if s = 1 then 1 else 0

theorem keyBit_bit (s : ℕ) : keyBit s = 0 ∨ keyBit s = 1 := by
  unfold keyBit
  split <;> simp

theorem rotation (s : ℕ) (c : ℤ) : (1 + messageOf (keyBit s) * (xpow c - 1) : Poly p) = xpow (c * keyBit s) := by
  rcases keyBit_bit s with h | h <;> simp [h, messageOf]

def tableIndex (p : UniEncParams w) (c : ℕ) : ℕ := if c % 2 ^ 32 = 2 * p.N then 0 else c % 2 ^ 32

theorem monomialAt_of_le {c : ℕ} (hc : c ≤ 2 * p.N) : monomialAt p c = .ok (xpow c - 1) := by
  rcases hc.lt_or_eq with lt | same
  · exact monomialAt_eq lt
  · exact monomialAt_self same

theorem tableIndex_lt_iff {c : ℕ} (h32 : c < 2 ^ 32) : tableIndex p c < 2 * p.N ↔ c ≤ 2 * p.N := by
  have hN : 0 < p.N := Nat.pos_of_ne_zero (NeZero.ne p.N)
  unfold tableIndex
  rw [Nat.mod_eq_of_lt h32]
  split <;> omega

section Pass
variable {hb : Product p} {sk invsk : Acc p} {CRS : Digit p → Poly p} {draws : AccDraws p n}
  {sv : Fin p.k → Fin n → ℕ}

theorem addToAccXZW0_phase (product : ExactFor hb sk invsk CRS draws) (inverse : sk 0 * invsk 0 = 1) (T : Poly p)
    {c : ℕ} (hc : c ≤ 2 * p.N) :
    let ek := keyGenAcc draws invsk sv CRS
    ∃ acc, addToAccXZW0 hb ek.star (ek.pos 0 0) c 0 (initial T) = .ok acc ∧
      phase p sk acc = T * xpow (c * keyBit (sv 0 0)) := by
  intro ek
  unfold addToAccXZW0
  rw [monomialAt_of_le hc]
  refine ⟨_, rfl, sub_eq_zero.mp (eq_zero_of_bounded_zero (first_phase ?_ inverse T (rotation (sv 0 0) c)))⟩
  have star : ek.star = kdmKeyGenXZW p draws.star (invsk 0) CRS 1 := rfl
  have pos : ek.pos 0 0 = kdmKeyGenXZW p (draws.pos 0 0) (invsk 0) CRS (keyBit (sv 0 0)) := by
    simp [ek, keyGenAcc, keyBit]
  have mult := product.keyDependent _ _ (.add (.base (.star (Or.inr rfl)))
    (.smul (xpow c - 1) (.base (.pos (keyBit_bit (sv 0 0))))))
  rw [star, pos]
  convert mult using 1
  · ext i : 2 <;> simp only [EvalKey.add_d, EvalKey.add_f, EvalKey.smul_d, EvalKey.smul_f] <;> ring
  · rw [show (messageOf 1 : Poly p) = 1 from if_pos rfl]
    ring

theorem addToAccXZW_phase (product : ExactFor hb sk invsk CRS draws) {u : Fin p.k} {i : Fin n}
    (other : ¬ (u = 0 ∧ i = 0)) (acc : Acc p) {c : ℕ} (hc : c ≤ 2 * p.N) :
    let ek := keyGenAcc draws invsk sv CRS
    ∃ next, addToAccXZW hb (ek.pos u i) c u acc = .ok next ∧
      phase p sk next = phase p sk acc * xpow (c * keyBit (sv u i)) := by
  intro ek
  unfold addToAccXZW
  rw [monomialAt_of_le hc]
  refine ⟨_, rfl, sub_eq_zero.mp (eq_zero_of_bounded_zero (update_phase ?_ acc (rotation (sv u i) c)))⟩
  have pos : ek.pos u i = keyGenXZW p (draws.pos u i) (invsk u) CRS (keyBit (sv u i)) := if_neg other
  rw [pos]
  exact product.plain u _ _ (.base (.pos i (keyBit_bit (sv u i))))

/-- Before the first pass the accumulator is the initial one; after that its phase is the rotated test polynomial. -/
def Rotated (sk : Acc p) (T : Poly p) (exponent : Fin p.k × Fin n → ℤ) (done : List (Fin p.k × Fin n))
    (acc : Acc p) : Prop :=
  if done = [] then acc = initial T else phase p sk acc = T * xpow (done.map exponent).sum

theorem evalAccStep_rotated (product : ExactFor hb sk invsk CRS draws) (inverse : sk 0 * invsk 0 = 1)
    {ct : Fin p.k → Fin n → ℕ} (inside : ∀ u i, ct u i ≤ 2 * p.N) {T : Poly p}
    {done rest : List (Fin p.k × Fin n)} {x : Fin p.k × Fin n} {acc : Acc p}
    (split : done ++ x :: rest = Run.gridIndices p.k n)
    (now : Rotated sk T (fun x => ct x.1 x.2 * keyBit (sv x.1 x.2)) done acc) :
    ∃ next, evalAccStep hb (keyGenAcc draws invsk sv CRS) ct acc x = .ok next ∧
      Rotated sk T (fun x => ct x.1 x.2 * keyBit (sv x.1 x.2)) (done ++ [x]) next := by
  obtain ⟨u, i⟩ := x
  have corner : (u = 0 ∧ i = 0) ↔ done = [] := by
    rw [← Run.gridIndices_corner split, Prod.mk.injEq]
  have notEmpty : done ++ [(u, i)] ≠ [] := by simp
  unfold Rotated at now ⊢
  by_cases first : done = []
  · obtain ⟨rfl, rfl⟩ := corner.mpr first
    rw [if_pos first] at now
    subst first now
    obtain ⟨next, ok, rotated⟩ := addToAccXZW0_phase product inverse T (inside 0 0)
    refine ⟨next, by rw [evalAccStep, if_pos ⟨rfl, rfl⟩, ok], ?_⟩
    rw [if_neg notEmpty, rotated]
    simp
  · have other := fun h => first (corner.mp h)
    rw [if_neg first] at now
    obtain ⟨next, ok, rotated⟩ := addToAccXZW_phase product other acc (inside u i)
    refine ⟨next, by rw [evalAccStep, if_neg other, ok], ?_⟩
    rw [if_neg notEmpty, rotated, now, mul_assoc, ← xpow_add, List.map_append, List.sum_append]
    simp

theorem evalAcc_phase (product : ExactFor hb sk invsk CRS draws) (inverse : sk 0 * invsk 0 = 1)
    {ct : Fin p.k → Fin n → ℕ} (inside : ∀ u i, ct u i ≤ 2 * p.N) (T : Poly p) :
    ∃ acc, evalAcc hb (keyGenAcc draws invsk sv CRS) (initial T) ct = .ok acc ∧
      phase p sk acc = T * xpow (∑ u, ∑ i, (ct u i : ℤ) * keyBit (sv u i)) := by
  obtain ⟨acc, run, last⟩ := Run.foldlM_ok (Rotated sk T fun x => ct x.1 x.2 * keyBit (sv x.1 x.2))
    (by rw [Rotated, if_pos rfl])
    (fun done x rest acc split now => evalAccStep_rotated product inverse inside split now)
  have nonempty : Run.gridIndices p.k n ≠ [] := by
    intro h
    have head := Run.gridIndices_head p.k n
    rw [h] at head
    cases head
  rw [Rotated, if_neg nonempty, Run.sum_gridIndices p.k n fun u i => (ct u i : ℤ) * keyBit (sv u i)] at last
  exact ⟨acc, run, last⟩

end Pass

/-! ### Agreement with the caller -/

/-- The accumulator does for the ciphertext `ct` of modulus `mod` what its caller expects: every index lies in the
table, and the phase is rotated by the entries scaled to `2 * N` times the secret coefficients `F`. -/
def Agrees (hb : Product p) (ek : AccKey p n) (sk : Acc p) (mod : ℕ) (F : Fin p.k → Fin n → ℤ)
    (ct : Fin p.k → Fin n → ℕ) : Prop :=
  (∀ u i, tableIndex p (ct u i) < 2 * p.N) ∧
  ∀ T : Poly p, ∃ acc, evalAcc hb ek (initial T) ct = .ok acc ∧
    phase p sk acc = T * xpow (∑ u, ∑ i, ((ct u i * (2 * p.N) / mod : ℕ) : ℤ) * F u i)

section Agreement
variable {hb : Product p} {sk invsk : Acc p} {CRS : Digit p → Poly p} {draws : AccDraws p n}
  {sv : Fin p.k → Fin n → ℕ} {F : Fin p.k → Fin n → ℤ} {mod : ℕ}

theorem one_ne_neg_one : (1 : ZMod p.Q) ≠ -1 := by
  have hQ := p.two_lt_Q
  intro h
  have two : ((2 : ℕ) : ZMod p.Q) = 0 := by
    push_cast
    linear_combination h
  have := Nat.le_of_dvd (by omega) ((ZMod.natCast_eq_zero_iff 2 p.Q).mp two)
  omega

theorem agrees_iff (product : ExactFor hb sk invsk CRS draws) (inverse : sk 0 * invsk 0 = 1)
    {ct : Fin p.k → Fin n → ℕ} (h32 : ∀ u i, ct u i < 2 ^ 32) :
    Agrees hb (keyGenAcc draws invsk sv CRS) sk mod F ct ↔
      (∀ u i, ct u i ≤ 2 * p.N) ∧
      (∑ u, ∑ i, (ct u i : ℤ) * keyBit (sv u i)) ≡
        ∑ u, ∑ i, ((ct u i * (2 * p.N) / mod : ℕ) : ℤ) * F u i [ZMOD 2 * p.N] := by
  unfold Agrees
  simp only [fun u i => tableIndex_lt_iff (p := p) (h32 u i)]
  refine and_congr_right fun inside => ⟨fun agrees => ?_, fun same T => ?_⟩
  · obtain ⟨acc, run, rotated⟩ := agrees 1
    obtain ⟨acc', run', rotated'⟩ := evalAcc_phase product inverse inside 1
    cases run.symm.trans run'
    rw [rotated', one_mul, one_mul] at rotated
    exact modEq_of_xpow_eq one_ne_neg_one rotated
  · obtain ⟨acc, run, rotated⟩ := evalAcc_phase product inverse inside T
    exact ⟨acc, run, by rw [rotated, xpow_congr same]⟩

/-- What a ciphertext modulus and one secret coefficient must be for its exponents to be right. -/
def Compatible (N mod s : ℕ) (F : ℤ) : Prop :=
  (s = 1 → mod = 1 ∨ mod = 2 * N - 1 ∨ mod = 2 * N) ∧
  (s ≠ 1 → ∀ x < mod, (2 * N : ℤ) ∣ ((x * (2 * N) / mod : ℕ) : ℤ) * F)

/-- Scaling from `mod` to `M` changes no exponent only when the two are equal, or `mod` is one below. -/
theorem scaled_eq_self_iff {M mod : ℕ} (hM : 2 ≤ M) (hmod : 0 < mod) (hle : mod ≤ M + 1) :
    (∀ x < mod, (x : ℤ) ≡ (x * M / mod : ℕ) [ZMOD M]) ↔ mod = 1 ∨ mod = M - 1 ∨ mod = M := by
  constructor
  · intro same
    by_contra other
    push Not at other
    obtain ⟨h1, h2, h3⟩ := other
    rcases Nat.lt_or_ge M mod with above | below
    · -- One step of a modulus above `M` is scaled to nothing.
      have one := Int.natCast_modEq_iff.mp (same 1 (by omega))
      rw [one_mul, Nat.div_eq_of_lt above] at one
      have := one.eq_of_lt_of_lt (by omega) (by omega)
      omega
    · -- The last entry of a modulus well below `M` is scaled past itself.
      have last := Int.natCast_modEq_iff.mp (same (mod - 1) (by omega))
      have past : mod ≤ (mod - 1) * M / mod := by
        rw [Nat.le_div_iff_mul_le hmod]
        obtain ⟨d, rfl⟩ : ∃ d, mod = d + 2 := ⟨mod - 2, by omega⟩
        obtain ⟨e, rfl⟩ : ∃ e, M = d + 4 + e := ⟨M - d - 4, by omega⟩
        rw [show d + 2 - 1 = d + 1 by omega]
        nlinarith
      have inside : (mod - 1) * M / mod < M :=
        Nat.div_lt_of_lt_mul (Nat.mul_lt_mul_of_pos_right (by omega) (by omega))
      have := last.eq_of_lt_of_lt (by omega) inside
      omega
  · rintro (rfl | rfl | rfl) x hx
    · obtain rfl : x = 0 := by omega
      simp
    · obtain ⟨m, rfl⟩ : ∃ m, M = m + 1 := ⟨M - 1, by omega⟩
      rw [Nat.add_sub_cancel] at hx ⊢
      have : x * (m + 1) / m = x := Nat.div_eq_of_lt_le (by nlinarith) (by nlinarith)
      rw [this]
    · rw [Nat.mul_div_cancel _ hmod]

theorem entry_iff_compatible {N s : ℕ} (hN : 0 < N) (hmod : 0 < mod) (hle : mod ≤ 2 * N + 1) {F : ℤ}
    (one : s = 1 → F = 1) :
    (∀ x < mod, (x : ℤ) * keyBit s ≡ ((x * (2 * N) / mod : ℕ) : ℤ) * F [ZMOD 2 * N]) ↔ Compatible N mod s F := by
  have scaled := scaled_eq_self_iff (show 2 ≤ 2 * N by omega) hmod hle
  rw [Nat.cast_mul, Nat.cast_two] at scaled
  unfold Compatible keyBit
  by_cases h : s = 1
  · rw [one h, if_pos h, ← scaled]
    simp [h]
  · rw [if_neg h]
    simp only [mul_zero, h, false_imp_iff, true_and, ne_eq, not_false_eq_true, true_imp_iff]
    refine forall₂_congr fun x _ => ?_
    rw [Int.modEq_comm, Int.modEq_zero_iff_dvd]

def single (u : Fin p.k) (i : Fin n) (x : ℕ) : Fin p.k → Fin n → ℕ := fun v j => if v = u ∧ j = i then x else 0

omit [NeZero n] in
theorem sum_single {g : ℕ → Fin p.k → Fin n → ℤ} (zero : ∀ v j, g 0 v j = 0) (u : Fin p.k) (i : Fin n) (x : ℕ) :
    ∑ v, ∑ j, g (single u i x v j) v j = g x u i := by
  rw [Finset.sum_eq_single u, Finset.sum_eq_single i]
  · rw [single, if_pos ⟨rfl, rfl⟩]
  · intro j _ hj
    rw [single, if_neg fun h => hj h.2, zero]
  · simp
  · intro v _ hv
    refine Finset.sum_eq_zero fun j _ => ?_
    rw [single, if_neg fun h => hv h.1, zero]
  · simp

theorem agrees_on_all_iff (product : ExactFor hb sk invsk CRS draws) (inverse : sk 0 * invsk 0 = 1) (hmod : 0 < mod)
    (one : ∀ u i, sv u i = 1 → F u i = 1) :
    (∀ ct : Fin p.k → Fin n → ℕ, (∀ u i, ct u i < mod) →
      Agrees hb (keyGenAcc draws invsk sv CRS) sk mod F ct) ↔
    mod ≤ 2 * p.N + 1 ∧ ∀ u i, Compatible p.N mod (sv u i) (F u i) := by
  have hN : 0 < p.N := Nat.pos_of_ne_zero (NeZero.ne p.N)
  have h32 := p.two_mul_N_lt
  constructor
  · intro agrees
    have bound : mod ≤ 2 * p.N + 1 := by
      by_contra above
      have index := (agrees (single 0 0 (2 * p.N + 1)) fun u i => by unfold single; split <;> omega).1 0 0
      rw [single, if_pos ⟨rfl, rfl⟩, tableIndex_lt_iff (by omega)] at index
      omega
    refine ⟨bound, fun u i => (entry_iff_compatible hN hmod bound (one u i)).mp fun x hx => ?_⟩
    have small : ∀ v j, single u i x v j < mod := fun v j => by unfold single; split <;> omega
    have same := ((agrees_iff product inverse fun v j => by have := small v j; omega).mp (agrees _ small)).2
    rwa [sum_single (g := fun c v j => (c : ℤ) * keyBit (sv v j)) (by simp),
      sum_single (g := fun c v j => ((c * (2 * p.N) / mod : ℕ) : ℤ) * F v j) (by simp)] at same
  · rintro ⟨bound, compatible⟩ ct small
    refine (agrees_iff product inverse fun u i => by have := small u i; omega).mpr
      ⟨fun u i => by have := small u i; omega, ?_⟩
    exact Int.ModEq.sum fun u _ => Int.ModEq.sum fun i _ =>
      (entry_iff_compatible hN hmod bound (one u i)).mpr (compatible u i) _ (small u i)

end Agreement

theorem exactFor_exactProduct {c : ZMod p.Q} (hc : const c * gd p 0 = 1) (sk invsk : Acc p)
    (CRS : Digit p → Poly p) :
    ExactFor (exactProduct c) sk invsk CRS (⟨fun _ _ => zeroDraws, zeroDraws⟩ : AccDraws p n) where
  plain u key m h := exactProduct_multipliesBy hc sk u (h.row fun key m enc => by
    cases enc
    exact keyGenXZW_zeroDraws _ _ _ _)
  keyDependent key m h := exactProduct_multipliesBy hc sk 0 (by
    have row := h.row (a := gd p 0 * invsk 0) fun key m enc => by
      cases enc <;> (rename_i bit; exact kdmKeyGenXZW_zeroDraws _ _ bit _)
    rw [row]
    ring)

end UniEncAccumulatorXZW_B
end MultiKeyFHE
