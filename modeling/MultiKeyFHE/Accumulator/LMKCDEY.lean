import MultiKeyFHE.Accumulator.RingGSW
import MultiKeyFHE.Library.PowersOfFive
import MultiKeyFHE.Native.Modular

/-!
# The LMKCDEY accumulator

`KeyGenAcc` and `EvalAcc` of `RingGSWAccumulatorLMKCDEY`. The entries are sorted by a signed logarithm to base five. Two
loops walk down the logarithms and postpone their automorphisms, so that several steps share one. What the loops do
to the accumulator is the list of their calls; the products and the automorphisms themselves are parameters. Every
odd number has its logarithm in the table (`logGen_residue`).
-/

namespace MultiKeyFHE
open Negacyclic NegPoly NativeInteger Draws Sampler PowersOfFive

namespace RingGSW

/-! ### Logarithms -/

/-- One step of the loop in `PreCompute` over `m_logGen`. -/
def logGenStep (M : ℕ) (now : ℕ × (ℕ → ℤ)) (i : ℕ) : ℕ × (ℕ → ℤ) :=
  let gPow := now.1 * 5 % 2 ^ 32 % M
  (gPow, Function.update (Function.update now.2 gPow (int32 i)) (M - gPow) (int32 (-i)))

/-- `m_logGen`, with the special entry for `-1`. -/
def logGen (N : ℕ) : ℕ → ℤ :=
  let M := 2 * N % 2 ^ 32
  ((List.range' 1 (N / 2 - 1)).foldl (logGenStep M) (1, Function.update (fun _ => 0) (M - 1) (int32 M))).2

/-! ### Keys -/

variable (w : NativeSize) (p : RingGSWCryptoParams)

/-- What the generators draw for an automorphism key. -/
structure AutoDraw where
  masks : ℕ → Poly p
  errors : ℕ → Poly p

/-- `(*ek)[0][0]` and `(*ek)[0][1]`. Both have `n` places, and the second keeps null pointers. -/
structure KeyLMKCDEY (n : ℕ) where
  secret : Fin n → EvalKey p
  auto : Fin n → Option (AutoKey p)

/-- The automorphism that the key at a position is generated for. -/
def autoExponent (index : ℕ) : ℕ := if index = 0 then 2 * p.N % 2 ^ 32 - 5 else modExp w 5 index (2 * p.N % 2 ^ 32)

variable {p} in
/-- `KeyGenAcc`. The automorphism keys are written at the positions up to `numAutoKeys`. -/
def keyGenAccLMKCDEY [NeZero p.N] {n : ℕ} (z : Poly p) (qKS : ℕ) (sv : Fin n → ℕ) (draw : Fin n → KeyDraw p)
    (drawAuto : Fin n → AutoDraw p) : Except Fault (KeyLMKCDEY p n) :=
  if p.numAutoKeys < n then
    .ok {
      secret := fun i => value (keyGenLMKCDEY p z (draw i).errors (secretDM qKS (sv i))) (draw i).masks
      auto := fun i =>
        if i.val ≤ p.numAutoKeys then
          some (value (keyGenAuto p z (drawAuto i).errors (autoExponent w p i)) (drawAuto i).masks)
        else none }
  else .error .outOfRange

/-! ### The walk -/

inductive Call (n : ℕ) where
  | addToAcc (index : Fin n)
  | automorphism (a index : ℕ)
  deriving DecidableEq

/-- The calls made so far, and the rotations that are still due. -/
structure Walk (n : ℕ) where
  nSkips : ℕ
  calls : List (Call n)

namespace Walk
variable {n : ℕ} (M numAutoKeys : ℕ)

def rotate (s : Walk n) : Walk n :=
  { nSkips := 0, calls := s.calls ++ [.automorphism (modExp w 5 s.nSkips M) s.nSkips] }

def add (indexVec : List (Fin n)) (s : Walk n) : Walk n := { s with calls := s.calls ++ indexVec.map .addToAcc }

/-- A bucket that is looked up outside the loops. -/
def addFound (found : Option (List (Fin n))) (s : Walk n) : Walk n :=
  match found with
  | some indexVec => s.add indexVec
  | none => s

/-- The body of both loops. -/
def visit (found : Option (List (Fin n))) (i : ℕ) (s : Walk n) : Walk n :=
  let s :=
    match found with
    | some indexVec => (if s.nSkips ≠ 0 then s.rotate w M else s).add indexVec
    | none => s
  let s := { s with nSkips := s.nSkips + 1 }
  if s.nSkips = numAutoKeys ∨ i = 1 then s.rotate w M else s

/-- A loop from the given logarithm down to one. -/
def descend (bucket : ℕ → Option (List (Fin n))) : ℕ → Walk n → Walk n
  | 0, s => s
  | i + 1, s => descend bucket i (s.visit w M numAutoKeys (bucket (i + 1)) (i + 1))

end Walk

/-- `logGen[aIOdd]`. -/
def logOf (M : ℕ) (logGen : ℕ → ℤ) (a : ℕ) : ℤ :=
  let aIOdd := int32 ((modSubFast w 0 a M % 2 ^ 32) ||| 0x1 : ℕ)
  logGen aIOdd.toNat

/-- `permuteMap`: an absent entry is made before the index is appended. -/
def permuteMap {n : ℕ} (M : ℕ) (logGen : ℕ → ℤ) (a : Fin n → ℕ) : ℤ → Option (List (Fin n)) :=
  (List.finRange n).foldl (fun permuteMap i =>
    let index := logOf w M logGen (a i)
    let permuteMap := if permuteMap index = none then Function.update permuteMap index (some []) else permuteMap
    Function.update permuteMap index ((permuteMap index).map (· ++ [i]))) fun _ => none

/-- The calls of `EvalAcc` in their order. -/
def schedule {n : ℕ} (a : Fin n → ℕ) : List (Call n) :=
  let Nh := p.N / 2
  let M := 2 * p.N % 2 ^ 32
  let permuteMap := permuteMap w M (logGen p.N) a
  let s : Walk n := { nSkips := 0, calls := [] }
  let s := s.descend w M p.numAutoKeys (fun i => permuteMap (int32 (-i))) (Nh - 1)
  let s := s.addFound (permuteMap (int32 M))
  let s : Walk n := { s with calls := s.calls ++ [.automorphism (M - 5) 0] }
  let s := s.descend w M p.numAutoKeys (fun i => permuteMap (int32 i)) (Nh - 1)
  (s.addFound (permuteMap 0)).calls

/-- `Automorphism` for a number and a key. -/
abbrev Automorphism : Type := ℕ → AutoKey p → Acc p → Acc p

variable {p} {n : ℕ}

def perform (product : Product p) (automorphism : Automorphism p) (ek : KeyLMKCDEY p n) (acc : Acc p) :
    Call n → Except Fault (Acc p)
  | .addToAcc index => .ok (product acc (ek.secret index))
  | .automorphism a index =>
    if inside : index < n then
      match ek.auto ⟨index, inside⟩ with
      | some ak => .ok (automorphism a ak acc)
      | none => .error .nullDereference
    else .error .outOfRange

/-- `EvalAcc`. -/
def evalAccLMKCDEY [NeZero p.N] (product : Product p) (automorphism : Automorphism p) (ek : KeyLMKCDEY p n) (acc : Acc p)
    (a : Fin n → ℕ) : Except Fault (Acc p) :=
  (schedule w p a).foldlM (perform product automorphism ek) { acc with b := substPow (2 * p.N % 2 ^ 32 - 5) acc.b }

/-! ### Every odd number has its logarithm -/

section Logarithms
variable {e : ℕ}

/-- The logarithm of a signed power as the table holds it. -/
def code (e : ℕ) (negative : Bool) (i : ℕ) : ℤ :=
  if negative then (if i = 0 then int32 (modulus e) else int32 (-i)) else int32 i

theorem code_false (i : ℕ) : code e false i = int32 i := if_neg Bool.false_ne_true

theorem code_one : code e true 0 = int32 (modulus e) := by rw [code, if_pos rfl, if_pos rfl]

theorem code_true {i : ℕ} (positive : i ≠ 0) : code e true i = int32 (-i) := by rw [code, if_pos rfl, if_neg positive]

theorem five_lt_modulus (more : 1 ≤ e) : 5 < modulus e := by
  have : 2 ^ 1 ≤ 2 ^ e := Nat.pow_le_pow_right two_pos more
  rw [modulus_eq]
  omega

theorem residue_zero (more : 1 ≤ e) (negative : Bool) : residue e negative 0 = if negative then modulus e - 1 else 1 := by
  have := five_lt_modulus more
  rw [residue, pow_zero, Nat.mod_eq_of_lt (by omega)]

theorem logGen_steps (more : 1 ≤ e) (narrow : modulus e < 2 ^ 32) {m : ℕ} (hm : m < 2 ^ e) :
    let now := (List.range' 1 m).foldl (logGenStep (modulus e))
      (1, Function.update (fun _ => 0) (modulus e - 1) (int32 (modulus e)))
    now.1 = 5 ^ m % modulus e ∧ ∀ negative i, i ≤ m → now.2 (residue e negative i) = code e negative i := by
  have large := five_lt_modulus more
  induction m with
  | zero =>
    refine ⟨by rw [pow_zero, Nat.mod_eq_of_lt (by omega)]; rfl, ?_⟩
    intro negative i hi
    obtain rfl := Nat.le_zero.mp hi
    rw [residue_zero more]
    dsimp only [List.range', List.foldl_nil]
    cases negative
    · rw [if_neg Bool.false_ne_true, Function.update_of_ne (by omega), code_false, Nat.cast_zero,
        int32_eq (by norm_num) (by norm_num)]
    · rw [if_pos rfl, Function.update_self, code_one]
  | succ m ih =>
    obtain ⟨power, entries⟩ := ih (by omega)
    rw [List.range'_1_concat, List.foldl_append]
    generalize (List.range' 1 m).foldl (logGenStep (modulus e)) _ = now at power entries ⊢
    have word : modulus e ∣ 2 ^ 32 := pow_dvd_pow 2 ((Nat.pow_lt_pow_iff_right one_lt_two).mp narrow).le
    have next : now.1 * 5 % 2 ^ 32 % modulus e = residue e false (m + 1) := by
      rw [Nat.mod_mod_of_dvd _ word, power, Nat.mod_mul_mod, ← pow_succ]
      rfl
    have opposite : modulus e - residue e false (m + 1) = residue e true (m + 1) := rfl
    have distinct : ∀ {negative negative' : Bool} {i j : ℕ}, i < 2 ^ e → j < 2 ^ e → ¬ (negative = negative' ∧ i = j) →
        residue e negative i ≠ residue e negative' j := fun hi hj differ same => differ (residue_injective hi hj same)
    simp only [List.foldl_cons, List.foldl_nil, logGenStep, next, opposite, Nat.add_comm 1 m]
    refine ⟨rfl, fun negative i hi => ?_⟩
    rcases Nat.lt_or_ge m i with last | before
    · obtain rfl : i = m + 1 := by omega
      cases negative
      · rw [Function.update_of_ne (distinct hm hm (by simp)), Function.update_self, code_false]
      · rw [Function.update_self, code_true (Nat.succ_ne_zero m)]
    · rw [Function.update_of_ne (distinct (by omega) hm (by omega)), Function.update_of_ne (distinct (by omega) hm (by omega))]
      exact entries negative i before

theorem logGen_residue (more : 1 ≤ e) (narrow : modulus e < 2 ^ 32) (negative : Bool) {i : ℕ} (hi : i < 2 ^ e) :
    logGen (2 ^ (e + 1)) (residue e negative i) = code e negative i := by
  have ring : 2 * 2 ^ (e + 1) = modulus e := by rw [modulus, ← pow_succ']
  have half : 2 ^ (e + 1) / 2 = 2 ^ e := by rw [pow_succ, Nat.mul_div_cancel _ two_pos]
  unfold logGen
  rw [ring, half, Nat.mod_eq_of_lt narrow]
  exact (logGen_steps more narrow (m := 2 ^ e - 1) (by have := Nat.two_pow_pos e; omega)).2 negative i (by omega)

theorem code_injective (narrow : modulus e < 2 ^ 32) {negative negative' : Bool} {i j : ℕ} (hi : i < 2 ^ e) (hj : j < 2 ^ e)
    (same : code e negative i = code e negative' j) : negative = negative' ∧ i = j := by
  have exponent : e + 2 < 32 := (Nat.pow_lt_pow_iff_right one_lt_two).mp narrow
  have small : 2 ^ e ≤ 2 ^ 29 := Nat.pow_le_pow_right two_pos (by omega)
  have plain : ∀ {i : ℕ}, i < 2 ^ e → int32 i = i ∧ int32 (-i) = -i := fun hi =>
    ⟨int32_eq (by omega) (by omega), int32_eq (by omega) (by omega)⟩
  -- The special entry is beyond the logarithms, or the least `int32_t`.
  have special : ∀ {i : ℕ}, i < 2 ^ e → int32 (modulus e) ≠ i ∧ int32 (modulus e) ≠ -i := by
    intro i hi
    have whole := modulus_eq e
    rcases Nat.lt_or_ge (modulus e) (2 ^ 31) with below | top
    · rw [int32_eq (by omega) (by omega)]
      omega
    · rw [show modulus e = 2 ^ 31 by omega]
      have least : int32 ((2 ^ 31 : ℕ) : ℤ) = -2 ^ 31 := by decide
      rw [least]
      omega
  have apart : ∀ {i j : ℕ}, i < 2 ^ e → j < 2 ^ e → code e false i ≠ code e true j := by
    intro i j hi hj same
    rw [code_false, (plain hi).1] at same
    rcases Nat.eq_zero_or_pos j with rfl | positive
    · rw [code_one] at same
      exact (special hi).1 same.symm
    · rw [code_true positive.ne', (plain hj).2] at same
      omega
  cases negative <;> cases negative'
  · rw [code_false, code_false, (plain hi).1, (plain hj).1] at same
    exact ⟨rfl, by omega⟩
  · exact absurd same (apart hi hj)
  · exact absurd same.symm (apart hj hi)
  · refine ⟨rfl, ?_⟩
    rcases Nat.eq_zero_or_pos i with rfl | left <;> rcases Nat.eq_zero_or_pos j with rfl | right
    · rfl
    · rw [code_one, code_true right.ne', (plain hj).2] at same
      exact absurd same (special hj).2
    · rw [code_one, code_true left.ne', (plain hi).2] at same
      exact absurd same.symm (special hi).2
    · rw [code_true left.ne', code_true right.ne', (plain hi).2, (plain hj).2] at same
      omega

/-- `((-a) mod 2N)` with its lowest bit set. -/
def oddNegative (N a : ℕ) : ℕ := (-(a : ℤ) % (2 * N : ℕ)).toNat ||| 1

theorem or_one_eq (x : ℕ) : x ||| 1 = 2 * (x / 2) + 1 := by
  apply Nat.eq_of_testBit_eq
  intro i
  cases i with
  | zero => simp
  | succ i =>
    rw [Nat.testBit_or, Nat.testBit_succ, Nat.testBit_succ 1, Nat.testBit_succ (2 * (x / 2) + 1),
      show (2 * (x / 2) + 1) / 2 = x / 2 by omega]
    simp

theorem oddNegative_odd (N a : ℕ) : oddNegative N a % 2 = 1 := by
  rw [oddNegative, or_one_eq]
  omega

theorem oddNegative_lt {N : ℕ} (hN : 0 < N) (a : ℕ) : oddNegative N a < 2 * N := by
  have low := Int.emod_nonneg (-(a : ℤ)) (show ((2 * N : ℕ) : ℤ) ≠ 0 by omega)
  have high := Int.emod_lt_of_pos (-(a : ℤ)) (show 0 < ((2 * N : ℕ) : ℤ) by omega)
  rw [oddNegative, or_one_eq]
  omega

theorem logOf_eq {w : NativeSize} (more : 1 ≤ e) (narrow : modulus e < 2 ^ 32) {a : ℕ} (ha : a < modulus e) {negative : Bool}
    {i : ℕ} (hi : i < 2 ^ e) (same : oddNegative (2 ^ (e + 1)) a = PowersOfFive.residue e negative i) :
    logOf w (modulus e) (logGen (2 ^ (e + 1))) a = code e negative i := by
  have ring : 2 * 2 ^ (e + 1) = modulus e := by rw [modulus, ← pow_succ']
  have whole := modulus_eq e
  have exponent : e + 2 < 32 := (Nat.pow_lt_pow_iff_right one_lt_two).mp narrow
  have small : 2 ^ e ≤ 2 ^ 29 := Nat.pow_le_pow_right two_pos (by omega)
  have word := w.two_pow_32_le
  have difference : modSubFast w 0 a (modulus e) = (-(a : ℤ) % (2 * 2 ^ (e + 1) : ℕ)).toNat := by
    rw [modSubFast_eq (by omega) ha (by omega), ring, Nat.zero_add]
    zify [ha.le]
    rw [Int.toNat_of_nonneg (Int.emod_nonneg _ (by omega)), sub_eq_neg_add, Int.add_emod_right]
  have below := oddNegative_lt (Nat.two_pow_pos (e + 1)) a
  rw [oddNegative, ← difference, ring, or_one_eq] at below
  unfold logOf
  rw [Nat.mod_eq_of_lt (by omega)]
  dsimp only
  rw [difference]
  change logGen _ (int32 (oddNegative _ _ : ℕ)).toNat = _
  have lt := oddNegative_lt (Nat.two_pow_pos (e + 1)) a
  rw [int32_eq (by omega) (by omega), Int.toNat_natCast, same]
  exact logGen_residue more narrow negative hi

end Logarithms

/-! ### Buckets -/

theorem permuteMap_eq (w : NativeSize) (M : ℕ) (logGen : ℕ → ℤ) (a : Fin n → ℕ) (key : ℤ) :
    (permuteMap w M logGen a key).getD [] = (List.finRange n).filter fun i => logOf w M logGen (a i) = key := by
  have fold : ∀ (indices : List (Fin n)) (map : ℤ → Option (List (Fin n))),
      (indices.foldl (fun permuteMap i =>
        let index := logOf w M logGen (a i)
        let permuteMap := if permuteMap index = none then Function.update permuteMap index (some []) else permuteMap
        Function.update permuteMap index ((permuteMap index).map (· ++ [i]))) map key).getD [] =
      (map key).getD [] ++ indices.filter fun i => logOf w M logGen (a i) = key := by
    intro indices
    induction indices with
    | nil => simp
    | cons i indices ih =>
      intro map
      rw [List.foldl_cons, ih, List.filter_cons]
      by_cases here : logOf w M logGen (a i) = key
      · subst here
        cases found : map (logOf w M logGen (a i)) <;> simp [found]
      · have elsewhere : key ≠ logOf w M logGen (a i) := Ne.symm here
        cases found : map (logOf w M logGen (a i)) <;> simp [found, here, elsewhere]
  exact (fold _ _).trans (List.nil_append _)

end RingGSW
end MultiKeyFHE
