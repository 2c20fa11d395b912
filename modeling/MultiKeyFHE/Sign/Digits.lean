import MultiKeyFHE.Context.SignBase
import MultiKeyFHE.Sign.Floor
import MultiKeyFHE.Sign.Moduli
import Mathlib.Data.Nat.Digits.Lemmas

/-!
# Sign and digits of a large message

The rounds of `EvalSign` and `EvalDecomp` on a message `m` of `2 * beta * m` divide it by `q / (2 * beta)` each time.
`EvalDecomp` stores the remainders, and `EvalSign` looks at the half that the last quotient is in.
-/

namespace MultiKeyFHE
open NativeInteger NativeVector Circle

namespace LWEGate

/-! ### Digits from the bottom -/

/-- The lowest `k` digits of `m`, and what is left of it. -/
def lowDigits (R : ℕ) : ℕ → ℕ → List ℕ
  | 0, m => [m]
  | k + 1, m => m % R :: lowDigits R k (m / R)

section Digits
variable {R k m d : ℕ}

@[simp] theorem length_lowDigits : (lowDigits R k m).length = k + 1 := by
  induction k generalizing m with
  | zero => rfl
  | succ k ih => rw [lowDigits, List.length_cons, ih]

theorem ofDigits_lowDigits : Nat.ofDigits R (lowDigits R k m) = m := by
  induction k generalizing m with
  | zero => simp [lowDigits]
  | succ k ih =>
    rw [lowDigits, Nat.ofDigits_cons, ih]
    exact Nat.mod_add_div m R

theorem getLast?_lowDigits : (lowDigits R k m).getLast? = some (m / R ^ k) := by
  induction k generalizing m with
  | zero => simp [lowDigits]
  | succ k ih =>
    rw [lowDigits, List.getLast?_cons, ih, Option.getD_some, Nat.div_div_eq_div_mul, pow_succ']

theorem lowDigits_lt {L : ℕ} (pos : 0 < R) (le : L ≤ R) (below : m < R ^ k * L) (member : d ∈ lowDigits R k m) : d < R := by
  induction k generalizing m with
  | zero =>
    rw [lowDigits, List.mem_singleton] at member
    rw [pow_zero, one_mul] at below
    omega
  | succ k ih =>
    rw [lowDigits, List.mem_cons] at member
    obtain rfl | member := member
    · exact Nat.mod_lt _ pos
    · refine ih ?_ member
      rw [Nat.div_lt_iff_lt_mul pos]
      rwa [pow_succ, mul_right_comm] at below

end Digits

/-! ### What is assumed of the parts -/

/-- The gadgets that changes of the base make of `g`. -/
inductive Rebased (plat : Platform) (g : Gadget) : Gadget → Prop
  | start : Rebased plat g g
  | change {g' : Gadget} (base : ℕ) (before : Rebased plat g g') : Rebased plat g (g'.changeBaseG plat base)

variable {P : SingleKeyParams}

/-- The keys that the rounds ask for are there. Under each of them `EvalFloor` clears the low part of a phase, up to
noise below a quarter of `beta`, and `BootstrapFunc` evaluates at the moduli that the rounds can end with. A switch to
the next modulus adds noise below a quarter of `beta`. -/
structure IdealRounds (w : NativeSize) (plat : Platform) (round : FloorRound) (EKs : KeyMap (EvalKeys P)) (g : Gadget)
    (s : Fin P.n → ℤ) (beta mod : ℕ) : Prop where
  key : ∃ EK, EKs.get? g.baseG = some EK
  dynamic : EKs.length = 3 → (∃ EK, EKs.get? (2 ^ 27) = some EK) ∧ ∃ EK, EKs.get? (2 ^ 18) = some EK
  floor : ∀ g' EK, Rebased plat g g' → EKs.get? g'.baseG = some EK → ∀ (ct : LWECiphertext P.n) (m : ℕ) (e : ℤ),
    LWE.Reduced ct → P.q < ct.modulus → ct.modulus ∣ mod → 2 * |e| < beta →
    LWE.phase s ct ≡ 2 * beta * m + e [ZMOD ct.modulus] → Clears s beta P.q m ct (evalFloor w plat round g' EK ct beta 0)
  switch : ∀ ct : LWECiphertext P.n, LWE.Reduced ct → P.q < ct.modulus → ct.modulus ∣ mod →
    Within (exactNext P.q beta ct.modulus) (beta / 4) (LWE.phase s (LWE.modSwitch round (exactNext P.q beta ct.modulus) ct))
      (LWE.phase s ct * exactNext P.q beta ct.modulus / ct.modulus)
  last : ∀ g' EK c, Rebased plat g g' → EKs.get? g'.baseG = some EK → 4 * beta ≤ c → c ∣ P.q →
    BootstrapsAt (bootstrapFunc w plat round g' EK) s beta c P.q

/-- `ct` has the modulus `M` and the message `m`. The noise is what a floor and a switch leave. -/
structure Holds {n : ℕ} (s : Fin n → ℤ) (beta M m : ℕ) (ct : LWECiphertext n) : Prop where
  reduced : LWE.Reduced ct
  modulus : ct.modulus = M
  phase : ∃ e : ℤ, 16 * |e| < 5 * beta ∧ LWE.phase s ct ≡ 2 * beta * m + e [ZMOD M]

variable {w : NativeSize} {plat : Platform} {round : FloorRound} {EKs : KeyMap (EvalKeys P)} {g g' : Gadget}
  {s : Fin P.n → ℤ} {beta mod R : ℕ} {EK : EvalKeys P} {ct : LWECiphertext P.n}

theorem two_pow_dvd_of_le {b c M : ℕ} (divides : M ∣ 2 ^ c) (le : 2 ^ b ≤ M) : 2 ^ b ∣ M := by
  obtain ⟨k, -, rfl⟩ := (Nat.dvd_prime_pow Nat.prime_two).mp divides
  exact Nat.pow_dvd_pow 2 ((Nat.pow_le_pow_iff_right (show 1 < 2 by omega)).mp le)

/-- What is assumed of `EvalFloor` follows from what is assumed of `BootstrapFunc`. -/
theorem IdealRounds.of_bootstraps {b c : ℕ} (power : P.q = 2 ^ b) (powerMod : mod = 2 ^ c) (pos : 0 < beta)
    (quarters : 4 * beta ∣ P.q) (more : P.q ≤ mod) (fits : ¬ modulusTooLarge w P.q) (word : 2 * mod ≤ 2 ^ w.bits)
    (key : ∃ EK, EKs.get? g.baseG = some EK)
    (dynamic : EKs.length = 3 → (∃ EK, EKs.get? (2 ^ 27) = some EK) ∧ ∃ EK, EKs.get? (2 ^ 18) = some EK)
    (boots : ∀ g' EK c M, Rebased plat g g' → EKs.get? g'.baseG = some EK → 4 * beta ≤ c → c ∣ P.q → P.q ∣ M → M ∣ mod →
      BootstrapsAt (bootstrapFunc w plat round g' EK) s beta c M)
    (switch : ∀ ct : LWECiphertext P.n, LWE.Reduced ct → P.q < ct.modulus → ct.modulus ∣ mod →
      Within (exactNext P.q beta ct.modulus) (beta / 4)
        (LWE.phase s (LWE.modSwitch round (exactNext P.q beta ct.modulus) ct))
        (LWE.phase s ct * exactNext P.q beta ct.modulus / ct.modulus)) :
    IdealRounds w plat round EKs g s beta mod where
  key := key
  dynamic := dynamic
  switch := switch
  last g' EK c rebased found low divides := by
    refine boots g' EK c P.q rebased found low divides dvd_rfl ?_
    rw [power] at more ⊢
    exact two_pow_dvd_of_le powerMod.dvd more
  floor g' EK rebased found ct m e reduced above divides he held := by
    have room : 0 < P.q := power ▸ Nat.two_pow_pos b
    have below : ct.modulus ≤ mod := Nat.le_of_dvd (by omega) divides
    have multiple : P.q ∣ ct.modulus := by
      rw [power] at above ⊢
      exact two_pow_dvd_of_le (powerMod ▸ divides) above.le
    obtain ⟨c, size⟩ := quarters
    have boot := boots g' EK P.q ct.modulus rebased found (Nat.le_of_dvd room ⟨c, size⟩) dvd_rfl multiple divides
    have part : 0 < beta * c := by
      rw [size, mul_assoc] at room
      omega
    exact evalFloor_clears boot rfl (size.trans (mul_assoc _ _ _)) part reduced multiple fits (by omega) (by omega) held

/-! ### One round -/

/-- A round finds the keys for the base that it changes to. -/
theorem IdealRounds.followBase_ok (ideal : IdealRounds w plat round EKs g s beta mod) (curBase binLog : ℕ)
    (from_ : Rebased plat g g') (key : EKs.get? g'.baseG = some EK) :
    ∃ EK' g'', followBase plat EKs curBase binLog EK g' = some (.ok EK', g'') ∧ Rebased plat g g'' ∧
      EKs.get? g''.baseG = some EK' := by
  unfold followBase
  split
  · rename_i three
    obtain ⟨⟨EK27, has27⟩, EK18, has18⟩ := ideal.dynamic three
    have there : ∀ base, baseFor binLog = some base → ∃ EK', EKs.get? base = some EK' := by
      intro base chosen
      unfold baseFor at chosen
      split at chosen
      · cases chosen
        exact ⟨EK27, has27⟩
      · split at chosen
        · cases chosen
          exact ⟨EK18, has18⟩
        · cases chosen
    cases chosen : baseFor binLog with
    | none => exact ⟨EK, g', rfl, from_, key⟩
    | some base =>
      obtain ⟨EK', found⟩ := there base chosen
      refine ⟨EK', g'.changeBaseG plat base, ?_, .change base from_, ?_⟩
      · simp only [SignM.bind, SignM.changeBaseG, found]
        rfl
      · rw [changeBaseG_baseG, found]
  · exact ⟨EK, g', rfl, from_, key⟩

/-- A quarter of `beta` at the switch, and a fourth at most of what the floor has left. -/
theorem exists_switched {M d : ℕ} {x y n : ℤ} (four : 4 ≤ R) (hn : 4 * |n| < beta)
    (held : x ≡ (2 * beta * R : ℕ) * d + n [ZMOD (2 * beta * (R * M) : ℕ)])
    (near : Within (2 * beta * M : ℕ) (beta / 4) y (x / R)) :
    ∃ e : ℤ, 16 * |e| < 5 * beta ∧ y ≡ 2 * beta * d + e [ZMOD (2 * beta * M : ℕ)] := by
  obtain ⟨t, ht⟩ := near
  obtain ⟨u, hu⟩ := held.symm.dvd
  have posR : (0 : ℚ) < R := by exact_mod_cast (show 0 < R by omega)
  have four' : (4 : ℚ) ≤ R := by exact_mod_cast four
  refine ⟨y - 2 * beta * d - (u + t) * (2 * beta * M : ℕ), ?_, Int.modEq_iff_dvd.mpr ⟨-(u + t), by ring⟩⟩
  have quotient : (x : ℚ) / R = 2 * beta * d + n / R + u * (2 * beta * M : ℕ) := by
    have : (x : ℚ) = (2 * beta * R : ℕ) * d + n + (2 * beta * (R * M) : ℕ) * u := by
      have : x = (2 * beta * R : ℕ) * d + n + (2 * beta * (R * M) : ℕ) * u := by linarith
      exact_mod_cast this
    rw [this]
    push_cast
    field_simp
  have error : ((y - 2 * beta * d - (u + t) * (2 * beta * M : ℕ) : ℤ) : ℚ) =
      (y - x / R - t * (2 * beta * M : ℕ)) + n / R := by
    rw [quotient]
    push_cast
    ring
  have small : |(n : ℚ) / R| ≤ |(n : ℚ)| / 4 := by
    rw [abs_div, abs_of_pos posR]
    exact div_le_div_of_nonneg_left (abs_nonneg _) (by norm_num) four'
  have hn' : 4 * |(n : ℚ)| < beta := by exact_mod_cast hn
  have bound : 16 * |((y - 2 * beta * d - (u + t) * (2 * beta * M : ℕ) : ℤ) : ℚ)| < 5 * beta := by
    rw [error]
    linarith [abs_add_le ((y : ℚ) - x / R - t * (2 * beta * M : ℕ)) (n / R)]
  exact_mod_cast bound

theorem exactNext_eq {M : ℕ} (size : P.q = 2 * beta * R) (pos : 0 < 2 * beta * R) :
    exactNext P.q beta (2 * beta * (R * M)) = 2 * beta * M := by
  rw [exactNext, size, show 2 * (2 * beta * (R * M)) * beta = 2 * beta * R * (2 * beta * M) by ring,
    Nat.mul_div_cancel_left _ pos]

theorem floorRound_of_floor {r : Rounds} {M : ℕ} {ct' : LWECiphertext P.n} {ret ret' : List (LWECiphertext P.n)}
    (stored : lowDigit (P := P) w r.stores ct ret = .ok ret') (run : evalFloor w plat round g' EK ct beta 0 = .ok ct')
    (nonzero : r.next M ≠ 0) :
    floorRound w plat round r beta M EK ct ret g' = .ok (LWE.modSwitch round (r.next M) ct', ret') := by
  rw [floorRound, stored]
  dsimp only [bind, Except.bind]
  rw [run]
  simp only [if_neg nonzero]
  rfl

theorem lowDigit_holds {M m : ℕ} (size : P.q = 2 * beta * R) (four : 4 ≤ R) (pos : 0 < beta)
    (below : 2 * beta * (R * M) ≤ mod) (word : 2 * mod ≤ 2 ^ w.bits) (fits : ¬ modulusTooLarge w P.q)
    (holds : Holds s beta (2 * beta * (R * M)) m ct) :
    ∃ low, LWE.changeModulus w P.q (LWE.copy ct) = .ok low ∧ Holds s beta P.q (m % R) low := by
  obtain ⟨reduced, modulus, e, he, held⟩ := holds
  have divides : P.q ∣ 2 * beta * (R * M) := by
    rw [size, ← mul_assoc]
    exact dvd_mul_right _ _
  have eight : 8 ≤ P.q := by
    rw [size]
    nlinarith
  obtain ⟨low, changed, reducedLow, modulusLow, along⟩ := LWE.changeModulus_of_dvd s reduced.copy
    (show P.q ∣ (LWE.copy ct).modulus from modulus ▸ divides) (by omega) (by omega) fits
    (show 2 * ct.modulus ≤ 2 ^ w.bits by omega)
  refine ⟨low, changed, reducedLow, modulusLow, e, he, ?_⟩
  refine (along.trans (held.of_dvd (Int.natCast_dvd_natCast.mpr divides))).trans ?_
  have split : (m : ℤ) = R * (m / R : ℕ) + (m % R : ℕ) := by exact_mod_cast (Nat.div_add_mod m R).symm
  rw [split, size]
  push_cast
  exact Int.modEq_iff_dvd.mpr ⟨-(m / R : ℕ), by push_cast; ring⟩

section Round
variable {M m : ℕ} (ideal : IdealRounds w plat round EKs g s beta mod) (from_ : Rebased plat g g')
  (key : EKs.get? g'.baseG = some EK) (size : P.q = 2 * beta * R) (four : 4 ≤ R) (pos : 0 < beta)
include ideal from_ key size four pos

/-- The floor and the switch of one round take the lowest digit off. -/
theorem floor_switch (more : 1 < M) (divides : 2 * beta * (R * M) ∣ mod) (holds : Holds s beta (2 * beta * (R * M)) m ct) :
    ∃ ct', evalFloor w plat round g' EK ct beta 0 = .ok ct' ∧
      Holds s beta (2 * beta * M) (m / R) (LWE.modSwitch round (2 * beta * M) ct') := by
  obtain ⟨reduced, modulus, e, he, held⟩ := holds
  have posQ : 0 < 2 * beta * R := by positivity
  have above : P.q < 2 * beta * (R * M) := by
    rw [size, ← mul_assoc]
    exact lt_mul_of_one_lt_right posQ more
  obtain ⟨ct', noise, run, reduced', modulus', small, value⟩ := ideal.floor g' EK from_ key ct m e reduced
    (modulus ▸ above) (modulus ▸ divides) (by omega) (modulus ▸ held)
  rw [modulus] at modulus' value
  refine ⟨ct', run, LWE.modSwitch_reduced round (by positivity) _, rfl, ?_⟩
  have switched := ideal.switch ct' reduced' (modulus' ▸ above) (modulus' ▸ divides)
  rw [modulus', exactNext_eq size posQ] at switched
  refine exists_switched (x := LWE.phase s ct') (n := noise) four small ?_ ?_
  · rwa [size, Nat.mul_div_mul_left _ _ (by positivity)] at value
  · convert switched using 1
    have : (0 : ℚ) < R := by exact_mod_cast (show 0 < R by omega)
    have : (0 : ℚ) < beta := by exact_mod_cast pos
    have : (0 : ℚ) < M := by exact_mod_cast (show 0 < M by omega)
    push_cast
    field_simp

theorem floorRound_eval {r : Rounds} (next : r.next (2 * beta * (R * M)) = 2 * beta * M) (more : 1 < M)
    (divides : 2 * beta * (R * M) ∣ mod) (word : 2 * mod ≤ 2 ^ w.bits) (posMod : 0 < mod)
    (holds : Holds s beta (2 * beta * (R * M)) m ct) (ret : List (LWECiphertext P.n)) :
    ∃ ct' stored, floorRound w plat round r beta (2 * beta * (R * M)) EK ct ret g' = .ok (ct', ret ++ stored) ∧
      Holds s beta (2 * beta * M) (m / R) ct' ∧
      (if r.stores then ∃ c, stored = [c] ∧ Holds s beta P.q (m % R) c else stored = []) := by
  obtain ⟨floored, run, after⟩ := floor_switch ideal from_ key size four pos more divides holds
  have usable := evalFloor_ok run
  have nonzero : ¬ r.next (2 * beta * (R * M)) = 0 := by
    rw [next]
    positivity
  by_cases stores : r.stores = true
  · obtain ⟨low, changed, digit⟩ := lowDigit_holds size four pos (Nat.le_of_dvd posMod divides) word usable.modulus holds
    refine ⟨_, [low], ?_, after, ?_⟩
    · rw [← next]
      refine floorRound_of_floor ?_ run nonzero
      rw [lowDigit, if_pos stores, changed]
      rfl
    · rw [if_pos stores]
      exact ⟨low, rfl, digit⟩
  · refine ⟨_, [], ?_, after, ?_⟩
    · rw [← next, List.append_nil]
      exact floorRound_of_floor (by rw [lowDigit, if_neg stores]) run nonzero
    · rw [if_neg stores]

end Round

/-! ### All rounds -/

section Rounds
variable {r : Rounds} {L : ℕ} (ideal : IdealRounds w plat round EKs g s beta mod) (size : P.q = 2 * beta * R) (four : 4 ≤ R)
  (pos : 0 < beta) (posMod : 0 < mod) (word : 2 * mod ≤ 2 ^ w.bits)
  (next : ∀ M, 1 < M → 2 * beta * (R * M) ∣ mod → r.next (2 * beta * (R * M)) = 2 * beta * M) (large : 1 < L)
include ideal size four pos posMod word next large

/-- The loop goes on with a round, whatever fuel is left after it. -/
theorem floorLoop_round (curBase : ℕ) {k m : ℕ} (from_ : Rebased plat g g') (key : EKs.get? g'.baseG = some EK)
    (divides : 2 * beta * (R * (R ^ k * L)) ∣ mod) (holds : Holds s beta (2 * beta * (R * (R ^ k * L))) m ct)
    (ret : List (LWECiphertext P.n)) :
    ∃ EK' ct' stored g'', Rebased plat g g'' ∧ EKs.get? g''.baseG = some EK' ∧
      Holds s beta (2 * beta * (R ^ k * L)) (m / R) ct' ∧
      (if r.stores then ∃ c, stored = [c] ∧ Holds s beta P.q (m % R) c else stored = []) ∧
      ∀ fuel, floorLoop w plat round r beta EKs curBase (fuel + 1) (2 * beta * (R * (R ^ k * L))) EK ct ret g' =
        floorLoop w plat round r beta EKs curBase fuel (2 * beta * (R ^ k * L)) EK' ct' (ret ++ stored) g'' := by
  have more : 1 < R ^ k * L := lt_of_lt_of_le large (Nat.le_mul_of_pos_left _ (by positivity))
  have above : 2 * beta * (R * (R ^ k * L)) > P.q := by
    rw [size, ← mul_assoc]
    exact lt_mul_of_one_lt_right (by positivity) more
  have here := next _ more divides
  obtain ⟨ct', stored, run, after, digit⟩ := floorRound_eval ideal from_ key size four pos here more divides word posMod
    holds ret
  obtain ⟨EK', g'', follow, from', key'⟩ := ideal.followBase_ok curBase (r.binLog (2 * beta * (R ^ k * L))) from_ key
  refine ⟨EK', ct', stored, g'', from', key', after, digit, fun fuel => ?_⟩
  rw [floorLoop, if_pos above]
  simp only [SignM.bind, SignM.reading, run, here, follow]

/-- From `R ^ k * L` the loop makes `k` rounds. -/
theorem floorLoop_digits (le : L ≤ R) (curBase : ℕ) {k m : ℕ} (from_ : Rebased plat g g') (key : EKs.get? g'.baseG = some EK)
    (divides : 2 * beta * (R ^ k * L) ∣ mod) (holds : Holds s beta (2 * beta * (R ^ k * L)) m ct)
    (ret : List (LWECiphertext P.n)) :
    ∃ EK' ct' stored g'', Rebased plat g g'' ∧ EKs.get? g''.baseG = some EK' ∧ Holds s beta (2 * beta * L) (m / R ^ k) ct' ∧
      (r.stores → List.Forall₂ (fun c d => Holds s beta c.modulus d c) (stored ++ [ct']) (lowDigits R k m)) ∧
      (r.stores → ∀ c ∈ stored, c.modulus = P.q) ∧
      (∀ fuel ≤ k, floorLoop w plat round r beta EKs curBase fuel (2 * beta * (R ^ k * L)) EK ct ret g' = none) ∧
      ∀ fuel, k < fuel → floorLoop w plat round r beta EKs curBase fuel (2 * beta * (R ^ k * L)) EK ct ret g' =
        some (.ok (EK', ct', ret ++ stored), g'') := by
  induction k generalizing m EK ct g' ret with
  | zero =>
    rw [pow_zero, one_mul] at holds
    have below : ¬ 2 * beta * (R ^ 0 * L) > P.q := by
      rw [size, pow_zero, one_mul]
      exact not_lt.mpr (Nat.mul_le_mul_left _ le)
    refine ⟨EK, ct, [], g', from_, key, by rwa [pow_zero, Nat.div_one], fun _ => ?_, ?_, ?_, ?_⟩
    · exact .cons (by rwa [holds.modulus]) .nil
    · rintro - c ⟨⟩
    · intro fuel short
      obtain rfl : fuel = 0 := by omega
      rfl
    · rintro fuel enough
      obtain ⟨fuel, rfl⟩ : ∃ f, fuel = f + 1 := ⟨fuel - 1, by omega⟩
      rw [floorLoop, if_neg below, List.append_nil]
      rfl
  | succ k ih =>
    rw [pow_succ', mul_assoc R] at divides holds ⊢
    obtain ⟨EK₁, ct₁, stored, g₁, from₁, key₁, holds₁, digit, once⟩ := floorLoop_round ideal size four pos posMod word next
      large curBase from_ key divides holds ret
    obtain ⟨EK', ct', rest, g'', from', key', holds', digits, moduli, short, enough⟩ := ih from₁ key₁
      (dvd_trans (Nat.mul_dvd_mul_left _ (dvd_mul_left _ _)) divides) holds₁ (ret ++ stored)
    refine ⟨EK', ct', stored ++ rest, g'', from', key', ?_, ?_, ?_, ?_, ?_⟩
    · rwa [Nat.div_div_eq_div_mul] at holds'
    · intro stores
      obtain ⟨c, rfl, low⟩ := (if_pos stores).mp digit
      exact .cons (by rwa [low.modulus]) (digits stores)
    · intro stores c member
      obtain ⟨c', rfl, low⟩ := (if_pos stores).mp digit
      rcases List.mem_append.mp member with first | later
      · rw [List.mem_singleton.mp first, low.modulus]
      · exact moduli stores c later
    · rintro fuel fewer
      cases fuel with
      | zero => rfl
      | succ fuel => rw [once, short fuel (by omega)]
    · rintro fuel more
      obtain ⟨fuel, rfl⟩ : ∃ f, fuel = f + 1 := ⟨fuel - 1, by omega⟩
      rw [once, enough fuel (by omega), List.append_assoc]

end Rounds

/-! ### The last bootstrapping -/

theorem quarter_changesSign {c fmod : ℕ} (four : 4 ≤ fmod) (word : fmod < 2 ^ w.bits) : ChangesSign (quarter w) c fmod := by
  constructor
  · intro x _
    unfold quarter
    split
    · omega
    · rw [sub_of_le (by omega) word]
      omega
  · intro x hx
    rw [quarter, if_pos hx, quarter, if_neg (by omega), sub_of_le (by omega) word, Nat.add_sub_cancel' (by omega), Nat.mod_self]

/-- The last quotient is `d`, on one half of `4 * (beta * h)` or the other. -/
theorem lastSign_bit {c d h : ℕ} (boots : BootstrapsAt (bootstrapFunc w plat round g' EK) s beta c P.q)
    (size : c = 4 * (beta * h)) (pos : 0 < beta) (hd : d < 2 * h) (quarters : 4 ∣ P.q) (word : P.q < 2 ^ w.bits)
    (wordC : 2 * c ≤ 2 ^ w.bits) (holds : Holds s beta c d ct) :
    ∃ out, ∃ noise : ℤ, lastSign w plat round false beta EK ct g' = .ok out ∧ LWE.Reduced out ∧ out.modulus = P.q ∧
      4 * |noise| < beta ∧ LWE.phase s out ≡ (d / h : ℕ) * (P.q / 2 : ℕ) + noise [ZMOD P.q] := by
  obtain ⟨reduced, modulus, e, he, held⟩ := holds
  have bounds := abs_le.mp (le_refl |e|)
  have posQ : 0 < P.q := P.q_pos
  have shift : P.q >>> 2 = P.q / 4 := Nat.shiftRight_eq_div_pow ..
  have four : 4 ≤ P.q := Nat.le_of_dvd posQ quarters
  have room : beta * d + beta ≤ 2 * (beta * h) := by
    calc beta * d + beta = beta * (d + 1) := (Nat.mul_succ _ _).symm
      _ ≤ beta * (2 * h) := Nat.mul_le_mul_left _ hd
      _ = 2 * (beta * h) := by ring
  have half : (d / h = 0 ∧ beta * d + beta ≤ beta * h) ∨ (d / h = 1 ∧ beta * h ≤ beta * d) := by
    rcases lt_or_ge d h with low | high
    · exact .inl ⟨Nat.div_eq_of_lt low, (Nat.mul_succ _ _).symm.trans_le (Nat.mul_le_mul_left _ low)⟩
    · refine .inr ⟨?_, Nat.mul_le_mul_left _ high⟩
      rw [Nat.div_eq_iff (by omega)]
      omega
  obtain ⟨reduced1, phase1⟩ := LWE.evalAddConstEq_ok (w := w) s reduced (show beta < ct.modulus by nlinarith)
    (by rw [modulus]; exact wordC)
  obtain ⟨y, hy⟩ : ∃ y : ℕ, (y : ℤ) = 2 * (beta * d : ℕ) + beta + e := ⟨_, Int.toNat_of_nonneg (by omega)⟩
  have place : LWE.phase s (LWE.evalAddConstEq w ct beta) ≡ y [ZMOD c] := by
    rw [modulus] at phase1
    refine (phase1.trans (held.add_right _)).trans ?_
    rw [hy]
    push_cast
    exact Int.modEq_iff_dvd.mpr ⟨0, by ring⟩
  obtain ⟨ct2, noise, run, small, value⟩ := boots _ (LWE.evalAddConstEq w ct beta) (quarter_changesSign four word) reduced1
    modulus
  rw [BinFHEScheme.toNat_emod (by omega) place] at value
  obtain ⟨reduced2, modulus2⟩ := bootstrapFunc_reduced posQ run
  obtain ⟨reduced3, phase3⟩ := LWE.evalSubConstEq_ok (w := w) s reduced2
    (show P.q / 4 < ct2.modulus by rw [modulus2]; omega) (by rw [modulus2]; exact word.le)
  rw [modulus2] at phase3
  refine ⟨LWE.evalSubConstEq w ct2 (P.q / 4), noise, ?_, reduced3, modulus2, small, (phase3.trans (value.sub_right _)).trans ?_⟩
  · rw [lastSign, if_neg (by decide)]
    dsimp only [bind, Except.bind]
    rw [run, shift]
    rfl
  · generalize beta * d = B at *
    generalize beta * h = C at *
    rcases half with ⟨bit, low⟩ | ⟨bit, high⟩
    · rw [quarter, if_pos (by omega), bit]
      exact Int.modEq_iff_dvd.mpr ⟨0, by push_cast; ring⟩
    · rw [quarter, if_neg (by omega), sub_of_le (by omega) word, bit]
      exact Int.modEq_iff_dvd.mpr ⟨0, by omega⟩

/-! ### Both functions -/

/-- The modulus of a message for `k` rounds and `2 * h` values after them. -/
structure Splits (w : NativeSize) (P : SingleKeyParams) (beta mod R h k : ℕ) : Prop where
  pos : 0 < beta
  four : 4 ≤ R
  half : 0 < h
  even : 2 * h ∣ R
  q_eq : P.q = 2 * beta * R
  mod_eq : mod = 2 * beta * (R ^ (k + 1) * (2 * h))
  word : 2 * mod * beta < 2 ^ w.bits

theorem Splits.more {h k : ℕ} (splits : Splits w P beta mod R h k) : P.q < mod := by
  obtain ⟨pos, four, half, -, size, same, -⟩ := splits
  have : 1 < R ^ k * (2 * h) := lt_of_lt_of_le (by omega : 1 < 2 * h) (Nat.le_mul_of_pos_left _ (by positivity))
  rw [size, same, pow_succ', mul_assoc R, ← mul_assoc (2 * beta) R]
  exact lt_mul_of_one_lt_right (by positivity) this

theorem Splits.le {h k : ℕ} (splits : Splits w P beta mod R h k) : 2 * h ≤ R :=
  Nat.le_of_dvd (by have := splits.four; omega) splits.even

theorem Splits.double_le {h k : ℕ} (splits : Splits w P beta mod R h k) : 2 * mod ≤ 2 ^ w.bits :=
  (Nat.le_mul_of_pos_right _ splits.pos).trans splits.word.le

theorem Splits.fits {h k M : ℕ} (splits : Splits w P beta mod R h k) (divides : 2 * beta * (R * M) ∣ mod) :
    2 * (2 * beta * (R * M)) * beta < 2 ^ w.bits := by
  have below : 2 * beta * (R * M) ≤ mod := Nat.le_of_dvd (by have := splits.more; omega) divides
  exact (Nat.mul_le_mul_right _ (Nat.mul_le_mul_left _ below)).trans_lt splits.word

theorem Splits.q_pos {h k : ℕ} (splits : Splits w P beta mod R h k) : 0 < 2 * beta * R := by
  have := splits.pos
  have := splits.four
  positivity

theorem Splits.quarters {h k : ℕ} (splits : Splits w P beta mod R h k) : 4 ∣ P.q := by
  obtain ⟨t, same⟩ := splits.even
  exact ⟨beta * h * t, by rw [splits.q_eq, same]; ring⟩

theorem Splits.q_dvd_word {h k b : ℕ} (splits : Splits w P beta mod R h k) (power : P.q = 2 ^ b) : P.q ∣ 2 ^ w.bits := by
  have := splits.more
  have := splits.double_le
  rw [power] at *
  apply Nat.pow_dvd_pow
  exact (Nat.pow_le_pow_iff_right (show 1 < 2 by omega)).mp (by omega)

theorem Splits.sign_next {h k M : ℕ} (splits : Splits w P beta mod R h k) (divides : 2 * beta * (R * M) ∣ mod) :
    (signRounds w P.q beta).next (2 * beta * (R * M)) = 2 * beta * M := by
  rw [signRounds_next_eq (splits.fits divides), exactNext_eq splits.q_eq splits.q_pos]

theorem Splits.decomp_next {h k M : ℕ} (splits : Splits w P beta mod R h k) (divides : 2 * beta * (R * M) ∣ mod) :
    (decompRounds w P.q beta).next (2 * beta * (R * M)) = 2 * beta * M := by
  have multiple : P.q ∣ 2 * beta * (R * M) := by
    rw [splits.q_eq, ← mul_assoc]
    exact dvd_mul_right _ _
  rw [decompRounds_next_eq P.q_pos multiple (splits.fits divides), exactNext_eq splits.q_eq splits.q_pos]

theorem exists_splits {a b c : ℕ} (powerBeta : beta = 2 ^ a) (power : P.q = 2 ^ b) (powerMod : mod = 2 ^ c)
    (room : 8 * beta ≤ P.q) (more : P.q < mod) (word : 2 * mod * beta < 2 ^ w.bits) :
    ∃ h k, Splits w P beta mod (P.q / (2 * beta)) h k := by
  have hab : a + 3 ≤ b := by
    apply (Nat.pow_le_pow_iff_right (show 1 < 2 by omega)).mp
    rw [pow_add, ← powerBeta, ← power]
    omega
  have hbc : b < c := by
    apply (Nat.pow_lt_pow_iff_right (show 1 < 2 by omega)).mp
    rw [← power, ← powerMod]
    exact more
  have size : P.q = 2 * beta * 2 ^ (b - a - 1) := by
    rw [power, powerBeta, ← pow_succ', ← pow_add]
    congr 1
    omega
  have digit : P.q / (2 * beta) = 2 ^ (b - a - 1) := by
    rw [size, Nat.mul_div_cancel_left _ (by rw [powerBeta]; positivity)]
  -- the exponents of the digits, with at least one bit left at the end
  have split := Nat.div_add_mod (c - a - 2) (b - a - 1)
  have rest := Nat.mod_lt (c - a - 2) (show 0 < b - a - 1 by omega)
  obtain ⟨k, hk⟩ : ∃ k, (c - a - 2) / (b - a - 1) = k + 1 := by
    have : 1 ≤ (c - a - 2) / (b - a - 1) := (Nat.one_le_div_iff (by omega)).mpr (by omega)
    exact ⟨_, (Nat.sub_add_cancel this).symm⟩
  rw [hk] at split
  refine ⟨2 ^ ((c - a - 2) % (b - a - 1)), k, ?_, ?_, by positivity, ?_, ?_, ?_, word⟩
  · rw [powerBeta]
    positivity
  · rw [digit, show 4 = 2 ^ 2 from rfl]
    exact Nat.pow_le_pow_right two_pos (by omega)
  · rw [digit, ← pow_succ']
    exact Nat.pow_dvd_pow 2 rest
  · rwa [digit]
  · rw [digit, powerMod, powerBeta, ← pow_succ', ← pow_succ', ← pow_mul, ← pow_add, ← pow_add]
    congr 1
    omega

section Large
variable {h k m : ℕ} {sk : LWEPrivateKey P.n} {e : ℤ}

/-- The rounds of either function from a fresh ciphertext. -/
theorem floorAll_digits {r : Rounds} (splits : Splits w P beta ct.modulus R h k)
    (ideal : IdealRounds w plat round EKs g s beta ct.modulus)
    (next : ∀ M, 1 < M → 2 * beta * (R * M) ∣ ct.modulus → r.next (2 * beta * (R * M)) = 2 * beta * M)
    (reduced : LWE.Reduced ct) (he : 4 * |e| < beta) (held : LWE.phase s ct ≡ 2 * beta * m + e [ZMOD ct.modulus])
    (name : String) :
    ∃ EK' ct' stored g'', Rebased plat g g'' ∧ EKs.get? g''.baseG = some EK' ∧
      Holds s beta (2 * beta * (2 * h)) (m / R ^ (k + 1)) ct' ∧
      (r.stores → List.Forall₂ (fun c d => Holds s beta c.modulus d c) (stored ++ [ct']) (lowDigits R (k + 1) m)) ∧
      (r.stores → ∀ c ∈ stored, c.modulus = P.q) ∧
      (∀ fuel ≤ k + 1, floorAll w plat round r name fuel EKs ct beta g.baseG g = none) ∧
      ∀ fuel, k + 1 < fuel → floorAll w plat round r name fuel EKs ct beta g.baseG g = some (.ok (EK', ct', stored), g'') := by
  obtain ⟨EK, found⟩ := ideal.key
  have positive : 0 < ct.modulus := Nat.zero_lt_of_lt reduced.b_lt
  have more : ¬ ct.modulus ≤ P.q := not_le.mpr splits.more
  have start : Holds s beta (2 * beta * (R ^ (k + 1) * (2 * h))) m (LWE.copy ct) := by
    rw [← splits.mod_eq]
    exact ⟨reduced.copy, rfl, e, by omega, held⟩
  have two : 1 < 2 * h := by
    have := splits.half
    omega
  obtain ⟨EK', ct', stored, g'', from', key', holds', digits, moduli, short, enough⟩ := floorLoop_digits ideal splits.q_eq
    splits.four splits.pos positive splits.double_le next two splits.le g.baseG .start found (dvd_of_eq splits.mod_eq.symm) start []
  rw [← splits.mod_eq] at short enough
  refine ⟨EK', ct', stored, g'', from', key', holds', digits, moduli, ?_, ?_⟩
  · intro fuel fewer
    simp only [floorAll, if_neg more, found, short fuel fewer]
  · intro fuel above
    simp only [floorAll, if_neg more, found, enough fuel above, List.nil_append]

theorem decrypts_bit {out : LWECiphertext P.n} {bit : ℕ} {noise : ℤ} (key : sk.Generated w) (reduced : LWE.Reduced out)
    (modulus : out.modulus = P.q) (fits : ¬ modulusTooLarge w P.q) (quarters : 4 ∣ P.q) (eight : 8 ≤ P.q)
    (dividesWord : P.q ∣ 2 ^ w.bits) (two : bit < 2) (small : 32 * |noise| < P.q)
    (value : LWE.phase sk.signed out ≡ bit * (P.q / 2 : ℕ) + noise [ZMOD P.q]) : LWE.decrypt w sk out 2 = .ok bit := by
  have even : P.q / 2 * 2 = P.q := by omega
  generalize P.q / 2 = half at even value
  have whole : (half : ℚ) * 2 = P.q := by exact_mod_cast even
  have small' : 32 * |(noise : ℚ)| < P.q := by exact_mod_cast small
  refine LWE.decrypt_eq key reduced (modulus ▸ fits) (modulus ▸ dividesWord) (by decide) (by rw [modulus]; omega) two ?_
  rw [modulus]
  apply Within.of_modEq value
  refine ⟨0, ?_⟩
  rw [show ((bit * half + noise : ℤ) : ℚ) - bit * P.q / (2 : ℕ) - (0 : ℤ) * P.q = noise by
    rw [← whole]
    push_cast
    ring]
  push_cast
  linarith

/-- `EvalSign` decides on the half of the last quotient. -/
theorem evalSign_bit (splits : Splits w P beta ct.modulus R h k)
    (ideal : IdealRounds w plat round EKs g sk.signed beta ct.modulus) (key : sk.Generated w) (reduced : LWE.Reduced ct)
    (he : 4 * |e| < beta) (held : LWE.phase sk.signed ct ≡ 2 * beta * m + e [ZMOD ct.modulus])
    (below : 2 * beta * m < ct.modulus) (quarters : 4 ∣ P.q) (dividesWord : P.q ∣ 2 ^ w.bits) :
    (∀ fuel ≤ k + 1, evalSign w plat round fuel EKs ct beta false g = none) ∧ ∀ fuel, k + 1 < fuel →
      (∃ EK ct1 ret g1, floorAll w plat round (signRounds w P.q beta) "EvalSign" fuel EKs ct beta g.baseG g =
        some (.ok (EK, ct1, ret), g1) ∧ ct1.modulus = 2 * beta * (2 * h)) ∧
      ∃ out g2, ∃ noise : ℤ, evalSign w plat round fuel EKs ct beta false g = some (.ok out, g2) ∧
        LWE.decrypt w sk out 2 = .ok (m / R ^ (k + 1) / h) ∧ 4 * |noise| < beta ∧
        LWE.phase sk.signed out ≡ (m / R ^ (k + 1) / h : ℕ) * (P.q / 2 : ℕ) + noise [ZMOD P.q] := by
  obtain ⟨EK', ct', stored, g'', from', key', holds', -, -, short, enough⟩ := floorAll_digits splits ideal
    (fun M _ divides => splits.sign_next divides) reduced he held "EvalSign"
  have pos := splits.pos
  have hd : m / R ^ (k + 1) < 2 * h := by
    apply Nat.div_lt_of_lt_mul
    rw [splits.mod_eq] at below
    exact Nat.lt_of_mul_lt_mul_left below
  have ends : 2 * beta * (2 * h) ∣ P.q := splits.q_eq ▸ Nat.mul_dvd_mul_left _ splits.even
  have room : 4 * beta ≤ 2 * beta * (2 * h) := by
    rw [show 2 * beta * (2 * h) = 4 * beta * h by ring]
    exact Nat.le_mul_of_pos_right _ splits.half
  have word := splits.double_le
  have more := splits.more
  have eight : 8 * beta ≤ P.q := by
    have := splits.four
    rw [splits.q_eq]
    nlinarith
  have endsLe := Nat.le_of_dvd (show 0 < P.q from P.q_pos) ends
  obtain ⟨out, noise, run, reducedOut, modulusOut, small, value⟩ := lastSign_bit
    (ideal.last g'' EK' (2 * beta * (2 * h)) from' key' room ends) (by ring) pos hd quarters
    (show P.q < 2 ^ w.bits by omega) (show 2 * (2 * beta * (2 * h)) ≤ 2 ^ w.bits by omega) holds'
  refine ⟨?_, fun fuel above => ⟨⟨EK', ct', stored, g'', enough fuel above, holds'.modulus⟩, out, g''.changeBaseG plat g.baseG,
    noise, ?_, ?_, small, value⟩⟩
  · intro fuel fewer
    rw [evalSign]
    simp only [SignM.bind, short fuel fewer]
  · rw [evalSign]
    simp only [SignM.bind, SignM.reading, SignM.changeBaseG, enough fuel above, run]
    rfl
  · refine decrypts_bit key reducedOut modulusOut ?_ quarters (by omega) dividesWord ?_ ?_ value
    · obtain ⟨EK, found⟩ := ideal.key
      obtain ⟨_, _, floored, -⟩ := ideal.floor g EK .start found ct m e reduced more dvd_rfl (by omega) held
      exact (evalFloor_ok floored).modulus
    · rw [Nat.div_lt_iff_lt_mul splits.half]
      exact hd
    · omega

/-- What `EvalDecomp` stores, and what is left at the end. -/
theorem evalDecomp_stored (splits : Splits w P beta ct.modulus R h k)
    (ideal : IdealRounds w plat round EKs g s beta ct.modulus) (reduced : LWE.Reduced ct) (he : 4 * |e| < beta)
    (held : LWE.phase s ct ≡ 2 * beta * m + e [ZMOD ct.modulus]) :
    ∃ stored last g', (∀ fuel ≤ k + 1, evalDecomp w plat round fuel EKs ct beta g = none) ∧
      (∀ fuel, k + 1 < fuel → evalDecomp w plat round fuel EKs ct beta g = some (.ok (stored ++ [last]), g')) ∧
      List.Forall₂ (fun c d => Holds s beta c.modulus d c) (stored ++ [last]) (lowDigits R (k + 1) m) ∧
      (∀ c ∈ stored, c.modulus = P.q) ∧ last.modulus = 2 * beta * (2 * h) := by
  obtain ⟨EK', ct', stored, g'', from', key', holds', digits, moduli, short, enough⟩ := floorAll_digits splits ideal
    (fun M _ divides => splits.decomp_next divides) reduced he held "EvalDecomp"
  refine ⟨stored, ct', g''.changeBaseG plat g.baseG, ?_, ?_, digits rfl, moduli rfl, holds'.modulus⟩
  · intro fuel fewer
    rw [evalDecomp]
    simp only [SignM.bind, short fuel fewer]
  · intro fuel above
    rw [evalDecomp]
    simp only [SignM.bind, SignM.changeBaseG, enough fuel above]
    rfl

/-- `EvalDecomp` returns the digits, the highest one last. -/
theorem evalDecomp_lowDigits (splits : Splits w P beta ct.modulus R h k)
    (ideal : IdealRounds w plat round EKs g s beta ct.modulus) (reduced : LWE.Reduced ct) (he : 4 * |e| < beta)
    (held : LWE.phase s ct ≡ 2 * beta * m + e [ZMOD ct.modulus]) :
    ∃ cts last g', (∀ fuel ≤ k + 1, evalDecomp w plat round fuel EKs ct beta g = none) ∧
      (∀ fuel, k + 1 < fuel → evalDecomp w plat round fuel EKs ct beta g = some (.ok cts, g')) ∧
      List.Forall₂ (fun c d => Holds s beta c.modulus d c) cts (lowDigits R (k + 1) m) ∧ cts.getLast? = some last ∧
      last.modulus = 2 * beta * (2 * h) := by
  obtain ⟨stored, last, g', short, enough, digits, -, modulus⟩ := evalDecomp_stored splits ideal reduced he held
  exact ⟨stored ++ [last], last, g', short, enough, digits, by simp, modulus⟩

/-- The last bit says on which side of the middle the message is. -/
theorem Splits.top_bit (splits : Splits w P beta mod R h k) (below : 2 * beta * m < mod) :
    m / R ^ (k + 1) / h = if mod / 2 ≤ 2 * beta * m then 1 else 0 := by
  have pos := splits.pos
  have half := splits.half
  have four := splits.four
  have middle : mod / 2 = 2 * beta * (R ^ (k + 1) * h) := by
    rw [splits.mod_eq, show 2 * beta * (R ^ (k + 1) * (2 * h)) = 2 * (2 * beta * (R ^ (k + 1) * h)) by ring,
      Nat.mul_div_cancel_left _ two_pos]
  have double : m < 2 * (R ^ (k + 1) * h) := by
    rw [splits.mod_eq, show 2 * beta * (R ^ (k + 1) * (2 * h)) = 2 * beta * (2 * (R ^ (k + 1) * h)) by ring] at below
    exact Nat.lt_of_mul_lt_mul_left below
  have room : 0 < R ^ (k + 1) * h := by positivity
  rw [middle, Nat.div_div_eq_div_mul]
  split
  · rename_i upper
    have : R ^ (k + 1) * h ≤ m := Nat.le_of_mul_le_mul_left upper (by positivity)
    rw [Nat.div_eq_iff room]
    omega
  · rename_i lower
    apply Nat.div_eq_of_lt
    by_contra high
    exact lower (Nat.mul_le_mul_left _ (not_lt.mp high))

end Large

/-! ### A map with one key -/

def zeroKeyMap : KeyMap (EvalKeys ring128) := [(ring128.rgsw.baseG, zeroKeys ring128)]

theorem zeroKeyMap_get {base : ℕ} {EK : EvalKeys ring128} (found : zeroKeyMap.get? base = some EK) : EK = zeroKeys ring128 := by
  unfold zeroKeyMap KeyMap.get? at found
  split at found
  · exact (Option.some.inj found).symm
  · cases found

theorem zeroKeyMap_ideal :
    IdealRounds .w64 .threeDigits exactRound zeroKeyMap ring128.rgsw.toGadget (fun _ => 0) (2 ^ 4) (2 ^ 20) := by
  refine .of_bootstraps (b := 8) (c := 20) rfl rfl (by decide) (by decide) (by decide) (by decide) (by decide) ?_ ?_ ?_ ?_
  · exact ⟨zeroKeys ring128, rfl⟩
  · intro three
    exact absurd three (by decide)
  · intro g' EK c M _ found low divides _ below
    obtain rfl := zeroKeyMap_get found
    have small : c ≤ 2 ^ 8 := Nat.le_of_dvd (by decide) divides
    obtain ⟨k, hk, rfl⟩ := (Nat.dvd_prime_pow Nat.prime_two).mp below
    exact zeroParams_bootstraps _ (by decide) (by decide) (by omega) small (by omega)
  · intro ct reduced above divides
    have pos : 0 < ct.modulus := by omega
    rw [LWE.phase_zero, LWE.phase_zero]
    have near := roundqQ_exact_near (v := ct.b) (q := exactNext ring128.q (2 ^ 4) ct.modulus) pos
    exact near.within (by norm_num)

def zeroSecret : LWEPrivateKey ring128.n := ⟨fun _ => 0, 2 ^ 8⟩

/-- The message `100` with noise three. -/
def hundred : LWECiphertext ring128.n := ⟨fun _ => 0, 3203, 2 ^ 20, 4⟩

theorem hundred_phase : LWE.phase zeroSecret.signed hundred ≡ 2 * (2 ^ 4 : ℕ) * (100 : ℕ) + 3 [ZMOD hundred.modulus] := by
  rw [show zeroSecret.signed = fun _ => 0 from rfl, LWE.phase_zero]
  simp [hundred]

/-- A run with a bound on its rounds ends after `k` of them. -/
def EndsAfter {α : Type} (run : ℕ → Option α) (k : ℕ) : Prop :=
  (∀ fuel ≤ k, run fuel = none) ∧ ∀ fuel, k < fuel → run fuel ≠ none

/-- The phase of `ct` modulo its own modulus, up to noise below `beta`. -/
def HasDigit {n : ℕ} (s : Fin n → ℤ) (beta : ℕ) (ct : LWECiphertext n) (d : ℕ) : Prop :=
  ∃ noise : ℤ, |noise| < beta ∧ LWE.phase s ct ≡ 2 * beta * d + noise [ZMOD ct.modulus]

theorem endsAfter_of_some {α : Type} {run : ℕ → Option α} {k : ℕ} (short : ∀ fuel ≤ k, run fuel = none)
    (enough : ∀ fuel, k < fuel → ∃ res, run fuel = some res) : EndsAfter run k := by
  refine ⟨short, fun fuel above none => ?_⟩
  obtain ⟨res, some_⟩ := enough fuel above
  rw [none] at some_
  cases some_

section Runs
variable {a b c m : ℕ} {e : ℤ} {sk : LWEPrivateKey P.n}

/-- The loop ends between `4 * beta` and `q`, and the result tells the upper half from the lower. -/
theorem evalSign_decides (powerBeta : beta = 2 ^ a) (power : P.q = 2 ^ b) (powerMod : ct.modulus = 2 ^ c)
    (room : 8 * beta ≤ P.q) (more : P.q < ct.modulus) (word : 2 * ct.modulus * beta < 2 ^ w.bits)
    (ideal : IdealRounds w plat round EKs g sk.signed beta ct.modulus) (key : sk.Generated w) (reduced : LWE.Reduced ct)
    (below : 2 * beta * m < ct.modulus) (he : 4 * |e| < beta)
    (held : LWE.phase sk.signed ct ≡ 2 * beta * m + e [ZMOD ct.modulus]) :
    ∃ k, EndsAfter (fun fuel => evalSign w plat round fuel EKs ct beta false g) k ∧ ∀ fuel, k < fuel →
      (∃ EK ct1 ret g1, floorAll w plat round (signRounds w P.q beta) "EvalSign" fuel EKs ct beta g.baseG g =
        some (.ok (EK, ct1, ret), g1) ∧ 4 * beta ≤ ct1.modulus ∧ ct1.modulus ≤ P.q) ∧
      ∃ out g2, ∃ noise : ℤ, evalSign w plat round fuel EKs ct beta false g = some (.ok out, g2) ∧
        LWE.decrypt w sk out 2 = .ok (if ct.modulus / 2 ≤ 2 * beta * m then 1 else 0) ∧ 4 * |noise| < beta ∧
        LWE.phase sk.signed out ≡ (if ct.modulus / 2 ≤ 2 * beta * m then P.q / 2 else 0 : ℕ) + noise [ZMOD P.q] := by
  obtain ⟨h, k, splits⟩ := exists_splits powerBeta power powerMod room more word
  obtain ⟨short, enough⟩ := evalSign_bit splits ideal key reduced he held below (splits.quarters)
    (splits.q_dvd_word power)
  refine ⟨k + 1, endsAfter_of_some short fun fuel above => ?_, fun fuel above => ?_⟩
  · obtain ⟨-, out, g2, noise, run, -⟩ := enough fuel above
    exact ⟨_, run⟩
  · obtain ⟨⟨EK, ct1, ret, g1, ended, modulus⟩, out, g2, noise, run, decrypted, small, value⟩ := enough fuel above
    have half := splits.half
    rw [splits.top_bit below] at decrypted value
    refine ⟨⟨EK, ct1, ret, g1, ended, ?_, ?_⟩, out, g2, noise, run, decrypted, small, value.trans ?_⟩
    · rw [modulus, show 2 * beta * (2 * h) = 4 * beta * h by ring]
      exact Nat.le_mul_of_pos_right _ half
    · rw [modulus, splits.q_eq]
      exact Nat.mul_le_mul_left _ splits.le
    · split
      · rw [Nat.cast_one, one_mul]
      · rw [Nat.cast_zero, zero_mul]

theorem hundred_decided :
    ∃ k, EndsAfter (fun fuel => evalSign .w64 .threeDigits exactRound fuel zeroKeyMap hundred (2 ^ 4) false
        ring128.rgsw.toGadget) k ∧ ∀ fuel, k < fuel →
      (∃ EK ct1 ret g1, floorAll .w64 .threeDigits exactRound (signRounds .w64 ring128.q (2 ^ 4)) "EvalSign" fuel zeroKeyMap
        hundred (2 ^ 4) ring128.rgsw.baseG ring128.rgsw.toGadget = some (.ok (EK, ct1, ret), g1) ∧
          4 * 2 ^ 4 ≤ ct1.modulus ∧ ct1.modulus ≤ ring128.q) ∧
      ∃ out g2, ∃ noise : ℤ, evalSign .w64 .threeDigits exactRound fuel zeroKeyMap hundred (2 ^ 4) false
          ring128.rgsw.toGadget = some (.ok out, g2) ∧
        LWE.decrypt .w64 zeroSecret out 2 = .ok (if hundred.modulus / 2 ≤ 2 * 2 ^ 4 * 100 then 1 else 0) ∧
        4 * |noise| < (2 ^ 4 : ℕ) ∧ LWE.phase zeroSecret.signed out ≡
          (if hundred.modulus / 2 ≤ 2 * 2 ^ 4 * 100 then ring128.q / 2 else 0 : ℕ) + noise [ZMOD ring128.q] :=
  evalSign_decides (a := 4) (b := 8) (c := 20) (e := 3) rfl rfl rfl (by decide) (by decide) (by decide) zeroKeyMap_ideal
    ⟨by decide, by decide⟩ ⟨by decide, by decide⟩ (by decide) (by decide) hundred_phase

/-- The digits and the sign of one message, after as many rounds. -/
theorem evalDecomp_digits (powerBeta : beta = 2 ^ a) (power : P.q = 2 ^ b) (powerMod : ct.modulus = 2 ^ c)
    (room : 8 * beta ≤ P.q) (more : P.q < ct.modulus) (word : 2 * ct.modulus * beta < 2 ^ w.bits)
    (ideal : IdealRounds w plat round EKs g sk.signed beta ct.modulus) (key : sk.Generated w) (reduced : LWE.Reduced ct)
    (below : m < ct.modulus / (2 * beta)) (he : 4 * |e| < beta)
    (held : LWE.phase sk.signed ct ≡ 2 * beta * m + e [ZMOD ct.modulus]) :
    ∃ k digits, EndsAfter (fun fuel => evalSign w plat round fuel EKs ct beta false g) k ∧
      Nat.ofDigits (P.q / (2 * beta)) digits = m ∧ (∀ d ∈ digits, d < P.q / (2 * beta)) ∧
      ∀ fuel, k < fuel → ∃ cts g1 out g2 last d,
        evalDecomp w plat round fuel EKs ct beta g = some (.ok cts, g1) ∧
        evalSign w plat round fuel EKs ct beta false g = some (.ok out, g2) ∧ cts.length = 1 + k ∧
        List.Forall₂ (HasDigit sk.signed beta) cts digits ∧
        cts.getLast? = some last ∧ digits.getLast? = some d ∧
        LWE.decrypt w sk out 2 = .ok (d / (last.modulus / (4 * beta))) := by
  obtain ⟨h, k, splits⟩ := exists_splits powerBeta power powerMod room more word
  have pos := splits.pos
  have below' : 2 * beta * m < ct.modulus := by
    calc 2 * beta * m < 2 * beta * (ct.modulus / (2 * beta)) := Nat.mul_lt_mul_of_pos_left below (by omega)
      _ ≤ ct.modulus := Nat.mul_div_le _ _
  obtain ⟨short, enough⟩ := evalSign_bit splits ideal key reduced he held below' splits.quarters (splits.q_dvd_word power)
  obtain ⟨cts, last, g', -, decomposed, digits, lastCt, modulus⟩ := evalDecomp_lowDigits splits ideal reduced he held
  refine ⟨k + 1, lowDigits (P.q / (2 * beta)) (k + 1) m, endsAfter_of_some short fun fuel above => ?_, ofDigits_lowDigits, ?_, ?_⟩
  · obtain ⟨-, out, g2, noise, run, -⟩ := enough fuel above
    exact ⟨_, run⟩
  · intro d member
    refine lowDigits_lt (by have := splits.four; omega) splits.le ?_ member
    rw [splits.mod_eq] at below'
    exact Nat.lt_of_mul_lt_mul_left below'
  · intro fuel above
    obtain ⟨-, out, g2, noise, run, decrypted, -, -⟩ := enough fuel above
    refine ⟨cts, g', out, g2, last, _, decomposed fuel above, run, ?_, ?_, lastCt, getLast?_lowDigits, ?_⟩
    · rw [digits.length_eq, length_lowDigits]
      omega
    · refine digits.imp ?_
      rintro ct d ⟨-, -, noise, small, value⟩
      exact ⟨noise, by omega, value⟩
    · rw [decrypted, modulus, show 2 * beta * (2 * h) = 4 * beta * h by ring, Nat.mul_div_cancel_left _ (by omega)]

theorem hundred_digits :
    ∃ k digits, EndsAfter (fun fuel => evalSign .w64 .threeDigits exactRound fuel zeroKeyMap hundred (2 ^ 4) false
        ring128.rgsw.toGadget) k ∧
      Nat.ofDigits (ring128.q / (2 * 2 ^ 4)) digits = 100 ∧ (∀ d ∈ digits, d < ring128.q / (2 * 2 ^ 4)) ∧
      ∀ fuel, k < fuel → ∃ cts g1 out g2 last d,
        evalDecomp .w64 .threeDigits exactRound fuel zeroKeyMap hundred (2 ^ 4) ring128.rgsw.toGadget =
          some (.ok cts, g1) ∧
        evalSign .w64 .threeDigits exactRound fuel zeroKeyMap hundred (2 ^ 4) false ring128.rgsw.toGadget =
          some (.ok out, g2) ∧ cts.length = 1 + k ∧
        List.Forall₂ (HasDigit zeroSecret.signed (2 ^ 4)) cts digits ∧
        cts.getLast? = some last ∧ digits.getLast? = some d ∧
        LWE.decrypt .w64 zeroSecret out 2 = .ok (d / (last.modulus / (4 * 2 ^ 4))) :=
  evalDecomp_digits (a := 4) (b := 8) (c := 20) (e := 3) rfl rfl rfl (by decide) (by decide) (by decide) zeroKeyMap_ideal
    ⟨by decide, by decide⟩ ⟨by decide, by decide⟩ (by decide) (by decide) hundred_phase

end Runs

end LWEGate
end MultiKeyFHE
