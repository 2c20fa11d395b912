import MultiKeyFHE.Gate.EvalFunc

/-!
# Homomorphic floor

`EvalFloor` bootstraps twice. The first time it moves the value into the middle half of the circle, and the second time
it takes off what it finds there. `evalFloor_clears` says what is left, and `evalFloor_iff` for which `roundbits`.
-/

namespace MultiKeyFHE
open NativeInteger NativeVector

namespace LWEGate

/-- Negacyclic modulo `c`, with values modulo `fmod`. -/
structure ChangesSign (f : Func) (c fmod : ℕ) : Prop where
  below : ∀ x < c, f x c fmod < fmod
  changes : ∀ x < c / 2, (f x c fmod + f (x + c / 2) c fmod) % fmod = 0

/-- What is assumed of `BootstrapFunc` on ciphertexts of modulus `c`: it returns `f` at the phase, up to noise below a
quarter of `beta`. -/
def BootstrapsAt {n : ℕ} (boot : LWECiphertext n → Func → ℕ → Except Fault (LWECiphertext n)) (s : Fin n → ℤ)
    (beta c fmod : ℕ) : Prop :=
  ∀ (f : Func) (ct : LWECiphertext n), ChangesSign f c fmod → LWE.Reduced ct → ct.modulus = c →
    ∃ ct', ∃ noise : ℤ, boot ct f fmod = .ok ct' ∧ 4 * |noise| < beta ∧
      LWE.phase s ct' ≡ f (LWE.phase s ct % c).toNat c fmod + noise [ZMOD fmod]

variable {P : SingleKeyParams} {w : NativeSize} {plat : Platform} {round : FloorRound} {g : Gadget} {EK : EvalKeys P}
  {s : Fin P.n → ℤ}

/-! ### The two functions -/

section Functions
variable {c fmod x : ℕ}

theorem halfSign_low (le : c ≤ fmod) (word : fmod < 2 ^ w.bits) (low : x < c / 2) : halfSign w x c fmod = fmod - c / 4 := by
  rw [halfSign, Nat.shiftRight_eq_div_pow, Nat.shiftRight_eq_div_pow, pow_one, if_pos low, sub_of_le (by omega) word]

theorem halfSign_high (high : c / 2 ≤ x) : halfSign w x c fmod = c / 4 := by
  rw [halfSign, Nat.shiftRight_eq_div_pow, Nat.shiftRight_eq_div_pow, pow_one, if_neg (by omega)]

theorem halfSign_changesSign (quarters : 4 ∣ c) (le : c ≤ fmod) (word : fmod < 2 ^ w.bits) :
    ChangesSign (halfSign w) c fmod := by
  constructor
  · intro x hx
    rcases lt_or_ge x (c / 2) with low | high
    · rw [halfSign_low le word low]
      omega
    · rw [halfSign_high high]
      omega
  · intro x hx
    rw [halfSign_low le word hx, halfSign_high (by omega), Nat.sub_add_cancel (by omega), Nat.mod_self]

theorem sawtooth_middle (word : c < 2 ^ w.bits) (lo : c / 4 ≤ x) (hi : x < 3 * (c / 4)) : sawtooth w x c fmod = x := by
  have three : mul w 3 (c / 4) = 3 * (c / 4) := by
    rw [NativeInteger.mul, wrap, Nat.mod_eq_of_lt (by omega)]
  rw [sawtooth, show c >>> 2 = c / 4 from Nat.shiftRight_eq_div_pow .., three, if_neg (by omega), if_pos ⟨lo, hi⟩]

theorem sawtooth_low (quarters : 4 ∣ c) (le : c ≤ fmod) (word : fmod < 2 ^ w.bits) (low : x < c / 4) :
    sawtooth w x c fmod = fmod - c / 2 - x := by
  rw [sawtooth, show c >>> 2 = c / 4 from Nat.shiftRight_eq_div_pow .., if_pos low, Nat.shiftRight_eq_div_pow, pow_one,
    sub_of_le (show c / 2 ≤ fmod by omega) word, sub_of_le (by omega) (by omega)]

theorem sawtooth_high (le : c ≤ fmod) (word : 2 * fmod ≤ 2 ^ w.bits) (high : 3 * (c / 4) ≤ x) (hx : x < c) :
    sawtooth w x c fmod = fmod + c / 2 - x := by
  have three : mul w 3 (c / 4) = 3 * (c / 4) := by
    rw [NativeInteger.mul, wrap, Nat.mod_eq_of_lt (by omega)]
  have sum : add w fmod (c / 2) = fmod + c / 2 := by
    rw [NativeInteger.add, wrap, Nat.mod_eq_of_lt (by omega)]
  rw [sawtooth, show c >>> 2 = c / 4 from Nat.shiftRight_eq_div_pow .., three, if_neg (by omega), if_neg (by omega),
    Nat.shiftRight_eq_div_pow, pow_one, sum, sub_of_le (by omega) (by omega)]

theorem sawtooth_changesSign (quarters : 4 ∣ c) (le : c ≤ fmod) (word : 2 * fmod ≤ 2 ^ w.bits) :
    ChangesSign (sawtooth w) c fmod := by
  have room : fmod < 2 ^ w.bits ∨ fmod = 0 := by omega
  constructor
  · intro x hx
    rcases lt_or_ge x (c / 4) with low | high
    · rw [sawtooth_low quarters le (by omega) low]
      omega
    rcases lt_or_ge x (3 * (c / 4)) with middle | high
    · rw [sawtooth_middle (by omega) (by omega) middle]
      omega
    · rw [sawtooth_high le word high hx]
      omega
  · intro x hx
    rcases lt_or_ge x (c / 4) with low | high
    · rw [sawtooth_low quarters le (by omega) low, sawtooth_middle (by omega) (by omega) (by omega),
        show fmod - c / 2 - x + (x + c / 2) = fmod by omega, Nat.mod_self]
    · rw [sawtooth_middle (by omega) high (by omega), sawtooth_high le word (by omega) (by omega),
        show x + (fmod + c / 2 - (x + c / 2)) = fmod by omega, Nat.mod_self]

end Functions

/-! ### One pass -/

theorem bootstrapFunc_reduced {len : ℕ} {ct : LWECiphertext len} {f : Func} {fmod : ℕ} {ct' : LWECiphertext P.n}
    (pos : 0 < fmod) (h : bootstrapFunc w plat round g EK ct f fmod = .ok ct') : LWE.Reduced ct' ∧ ct'.modulus = fmod := by
  obtain ⟨acc, -, h⟩ := Run.bind_ok h
  unfold switch at h
  split at h
  · cases h
  · cases h
    exact ⟨LWE.modSwitch_reduced round pos _, rfl⟩

theorem floorPass_eval {beta q mod : ℕ} {f : Func} {ct : LWECiphertext P.n} (same : ct.modulus = mod)
    (boots : BootstrapsAt (bootstrapFunc w plat round g EK) s beta q mod) (changes : ChangesSign f q mod)
    (h : LWE.Reduced ct) (divides : q ∣ mod) (other : q ≠ 2) (fits : ¬ modulusTooLarge w q)
    (word : 2 * mod ≤ 2 ^ w.bits) {y : ℕ} (hy : y < q) (held : LWE.phase s ct ≡ y [ZMOD q]) :
    ∃ ct', ∃ noise : ℤ, floorPass w plat round g EK q mod f ct = .ok ct' ∧ LWE.Reduced ct' ∧ ct'.modulus = mod ∧
      4 * |noise| < beta ∧ LWE.phase s ct' ≡ LWE.phase s ct - f y q mod - noise [ZMOD mod] := by
  subst same
  have positive : 0 < ct.modulus := Nat.zero_lt_of_lt h.b_lt
  obtain ⟨low, changed, reduced, modulus, along⟩ := LWE.changeModulus_of_dvd s h.copy divides other (by omega) fits word
  rw [LWE.phase_copy] at along
  obtain ⟨ct2, noise, run, small, value⟩ := boots f low changes reduced modulus
  rw [BinFHEScheme.toNat_emod hy (along.trans held)] at value
  obtain ⟨reduced2, modulus2⟩ := bootstrapFunc_reduced positive run
  obtain ⟨ct', difference, reduced', modulus', -, phase'⟩ := LWE.evalSubEq_ok s modulus2.symm h reduced2 word
  refine ⟨ct', noise, ?_, reduced', modulus', small, ?_⟩
  · rw [floorPass, changed]
    dsimp only [bind, Except.bind]
    rw [run]
    dsimp only
    rw [sameLength, dif_pos rfl]
    exact difference
  · rw [sub_sub]
    exact phase'.trans (value.sub_left _)

/-! ### Both passes -/

/-- What a floor leaves of a phase `2 * beta * m`: the multiple of `q`, up to noise below a quarter of `beta`. -/
def Clears (s : Fin P.n → ℤ) (beta q m : ℕ) (ct : LWECiphertext P.n) (run : Except Fault (LWECiphertext P.n)) : Prop :=
  ∃ ct', ∃ noise : ℤ, run = .ok ct' ∧ LWE.Reduced ct' ∧ ct'.modulus = ct.modulus ∧ 4 * |noise| < beta ∧
    LWE.phase s ct' ≡ q * (2 * beta * m / q : ℕ) + noise [ZMOD ct.modulus]

theorem evalFloor_clears {beta q roundbits c m : ℕ} {e : ℤ} {ct : LWECiphertext P.n}
    (boots : BootstrapsAt (bootstrapFunc w plat round g EK) s beta q ct.modulus)
    (modulus : floorModulus w P.q beta roundbits = .ok q) (size : q = 4 * (beta * c)) (pos : 0 < beta * c)
    (h : LWE.Reduced ct) (divides : q ∣ ct.modulus) (fits : ¬ modulusTooLarge w q) (word : 2 * ct.modulus ≤ 2 ^ w.bits)
    (he : 4 * |e| < 3 * beta) (held : LWE.phase s ct ≡ 2 * beta * m + e [ZMOD ct.modulus]) :
    Clears s beta q m ct (evalFloor w plat round g EK ct beta roundbits) := by
  have positive : 0 < ct.modulus := Nat.zero_lt_of_lt h.b_lt
  have le := Nat.le_of_dvd positive divides
  have posBeta : 0 < beta := Nat.pos_of_mul_pos_right pos
  have bounds := abs_le.mp (le_refl |e|)
  -- the low part is twice `B`, on one half of the circle
  have place : 2 * beta * m % q = 2 * (beta * (m % (2 * c))) := by
    rw [size, show 4 * (beta * c) = 2 * beta * (2 * c) by ring, Nat.mul_mod_mul_left, mul_assoc]
  have whole : (2 * beta * m : ℤ) = q * (2 * beta * m / q : ℕ) + 2 * (beta * (m % (2 * c)) : ℕ) := by
    have split := Nat.div_add_mod (2 * beta * m) q
    rw [place] at split
    exact_mod_cast split.symm
  have digit : m % (2 * c) < 2 * c := Nat.mod_lt _ (by have := Nat.pos_of_mul_pos_left pos; omega)
  have room : beta * (m % (2 * c)) + beta ≤ 2 * (beta * c) := by
    calc beta * (m % (2 * c)) + beta = beta * (m % (2 * c) + 1) := (Nat.mul_succ _ _).symm
      _ ≤ beta * (2 * c) := Nat.mul_le_mul_left _ digit
      _ = 2 * (beta * c) := by ring
  have sides : beta * (m % (2 * c)) + beta ≤ beta * c ∨ beta * c ≤ beta * (m % (2 * c)) := by
    rcases lt_or_ge (m % (2 * c)) c with low | high
    · exact .inl ((Nat.mul_succ _ _).symm.trans_le (Nat.mul_le_mul_left _ low))
    · exact .inr (Nat.mul_le_mul_left _ high)
  generalize beta * (m % (2 * c)) = B at whole room sides
  generalize beta * c = C at size pos room sides
  obtain ⟨reduced1, phase1⟩ := LWE.evalAddConstEq_ok (w := w) s h.copy
    (show beta < (LWE.copy ct).modulus by change beta < ct.modulus; omega) word
  obtain ⟨y, hy⟩ : ∃ y : ℕ, (y : ℤ) = 2 * B + beta + e := ⟨_, Int.toNat_of_nonneg (by omega)⟩
  have first : LWE.phase s (LWE.evalAddConstEq w (LWE.copy ct) beta) ≡ y [ZMOD q] := by
    refine ((phase1.trans (held.add_right _)).of_dvd (Int.natCast_dvd_natCast.mpr divides)).trans ?_
    rw [hy, whole]
    exact Int.modEq_iff_dvd.mpr ⟨-(2 * beta * m / q : ℕ), by ring⟩
  obtain ⟨ct2, noise1, run1, reduced2, modulus2, small1, phase2⟩ := floorPass_eval
    (show (LWE.evalAddConstEq w (LWE.copy ct) beta).modulus = ct.modulus from rfl) boots
    (halfSign_changesSign (w := w) ⟨C, size⟩ le (by omega)) reduced1 divides (by omega) fits word (by omega) first
  have bounds1 := abs_le.mp (le_refl |noise1|)
  -- a quarter of the circle takes it to the middle
  obtain ⟨t, turned, lo, hi⟩ : ∃ t : ℤ, (halfSign w y q ct.modulus : ℤ) ≡ -t [ZMOD ct.modulus] ∧ (C : ℤ) ≤ 2 * B + t ∧
      2 * B + t + 2 * beta ≤ 3 * (C : ℤ) := by
    rcases sides with low | high
    · refine ⟨C, ?_, by omega, by omega⟩
      rw [halfSign_low le (by omega) (by omega), Nat.cast_sub (by omega), size, Nat.mul_div_cancel_left _ (by omega)]
      exact Int.modEq_iff_dvd.mpr ⟨-1, by ring⟩
    · refine ⟨-C, ?_, by omega, by omega⟩
      rw [halfSign_high (by omega), size, Nat.mul_div_cancel_left _ (by omega), neg_neg]
  obtain ⟨z, hz⟩ : ∃ z : ℕ, (z : ℤ) = 2 * B + beta + e + t - noise1 := ⟨_, Int.toNat_of_nonneg (by omega)⟩
  have along : LWE.phase s ct2 ≡ 2 * beta * m + e + beta + t - noise1 [ZMOD ct.modulus] := by
    refine phase2.trans (Int.ModEq.sub_right _ ?_)
    rw [← sub_neg_eq_add (_ + (beta : ℤ)) t]
    exact (phase1.trans (held.add_right _)).sub turned
  have second : LWE.phase s ct2 ≡ z [ZMOD q] := by
    refine (along.of_dvd (Int.natCast_dvd_natCast.mpr divides)).trans ?_
    rw [hz, whole]
    exact Int.modEq_iff_dvd.mpr ⟨-(2 * beta * m / q : ℕ), by ring⟩
  obtain ⟨ct3, noise2, run2, reduced3, modulus3, small2, phase3⟩ := floorPass_eval modulus2 boots
    (sawtooth_changesSign ⟨C, size⟩ le word) reduced2 divides (by omega) fits word (by omega) second
  refine ⟨ct3, -noise2, ?_, reduced3, modulus3, by rwa [abs_neg], ?_⟩
  · rw [evalFloor_passes w plat round modulus, run1]
    exact run2
  · rw [sawtooth_middle (by omega) (by omega) (by omega)] at phase3
    refine phase3.trans (((along.sub_right _).sub_right _).trans ?_)
    rw [hz, whole]
    exact Int.modEq_iff_dvd.mpr ⟨0, by ring⟩

/-! ### The modulus of the low part -/

/-- `q` in the comments: the modulus of the parameters, or room for `roundbits` bits. -/
def lowModulus (q beta roundbits : ℕ) : ℕ := if roundbits = 0 then q else beta * 2 ^ (roundbits + 1)

theorem floorModulus_eq {q beta roundbits : ℕ} (small : roundbits < 30) (fits : lowModulus q beta roundbits < 2 ^ w.bits) :
    floorModulus w q beta roundbits = .ok (lowModulus q beta roundbits) := by
  unfold lowModulus floorModulus oneShiftedBy at *
  split
  · rfl
  · rename_i some_
    rw [if_neg some_] at fits
    rw [Nat.mod_eq_of_lt (by omega), if_pos (by omega)]
    change Except.ok (mul w beta (2 ^ (roundbits + 1))) = _
    rw [NativeInteger.mul, wrap_of_lt fits]

/-- From thirty bits on the shift reaches the sign of an `int`, and then goes past it. -/
theorem floorModulus_tooLarge {q beta roundbits m : ℕ} (large : 30 ≤ roundbits) (word : roundbits < 2 ^ 32) (pos : 0 < beta)
    (fits : lowModulus q beta roundbits * 16 < 2 ^ w.bits) (h : floorModulus w q beta roundbits = .ok m) :
    modulusTooLarge w m := by
  unfold lowModulus at fits
  rw [if_neg (by omega)] at fits
  have exponent : roundbits + 1 < w.bits := by
    apply (Nat.pow_lt_pow_iff_right (show 1 < 2 by omega)).mp
    calc 2 ^ (roundbits + 1) ≤ beta * 2 ^ (roundbits + 1) := Nat.le_mul_of_pos_left _ pos
      _ < 2 ^ w.bits := by omega
  have narrow : w.bits < 2 ^ 32 := by cases w <;> decide
  unfold floorModulus oneShiftedBy at h
  rw [if_neg (by omega), Nat.mod_eq_of_lt (by omega), if_neg (by omega)] at h
  split at h
  · rename_i sign
    rw [sign] at fits
    have same : mul w beta (2 ^ w.bits - 2 ^ 31) = m := Except.ok.inj h
    rw [← same]
    -- the product is short of the size of a word by `q`
    have short : beta * (2 ^ w.bits - 2 ^ 31) = 2 ^ w.bits * (beta - 1) + (2 ^ w.bits - beta * 2 ^ 31) := by
      have below : 2 ^ 31 ≤ 2 ^ w.bits := Nat.pow_le_pow_right two_pos (by cases w <;> decide)
      obtain ⟨b, rfl⟩ : ∃ b, beta = b + 1 := ⟨beta - 1, by omega⟩
      rw [Nat.mul_sub, Nat.add_sub_cancel, Nat.add_mul b 1 (2 ^ w.bits), one_mul, mul_comm b, Nat.add_sub_assoc (by omega)]
    by_contra small
    have := lt_of_not_tooLarge small
    rw [NativeInteger.mul, wrap, short, Nat.mul_add_mod, Nat.mod_eq_of_lt (by omega)] at this
    omega
  · cases h

/-- The low part is never taken for a modulus that no vector accepts. -/
theorem evalFloor_stops {len : ℕ} {beta roundbits : ℕ} {ct : LWECiphertext len} (large : 30 ≤ roundbits)
    (word : roundbits < 2 ^ 32) (pos : 0 < beta) (fits : lowModulus P.q beta roundbits * 16 < 2 ^ w.bits)
    (ct' : LWECiphertext len) : evalFloor w plat round g EK ct beta roundbits ≠ .ok ct' := by
  intro run
  obtain ⟨m, found, run⟩ := Run.bind_ok run
  obtain ⟨ct1, pass, -⟩ := Run.bind_ok run
  obtain ⟨low, changed, -⟩ := Run.bind_ok pass
  exact changeModulus_ok changed (floorModulus_tooLarge large word pos fits found)

/-! ### Which part is cleared -/

/-- The floor of a phase `x`: a ciphertext of the same modulus with `q * floor(x / q)`, found with two functions that are
negacyclic modulo `q`. -/
structure Floors (w : NativeSize) (s : Fin P.n → ℤ) (beta q x : ℕ) (ct : LWECiphertext P.n)
    (run : Except Fault (LWECiphertext P.n)) : Prop where
  floor : ∃ ct', ∃ noise : ℤ, run = .ok ct' ∧ ct'.modulus = ct.modulus ∧ |noise| < beta ∧
    LWE.phase s ct' ≡ q * (x / q : ℕ) + noise [ZMOD ct.modulus]
  first : ChangesSign (halfSign w) q ct.modulus
  second : ChangesSign (sawtooth w) q ct.modulus

/-- `EvalFloor` clears the low part of every value, as long as the shift stays within an `int`. -/
theorem evalFloor_iff {a b q beta roundbits x : ℕ} {e : ℤ} {ct : LWECiphertext P.n}
    (modulus : lowModulus P.q beta roundbits = q) (power : q = 2 ^ b) (powerBeta : beta = 2 ^ a) (le : 4 * beta ≤ q)
    (word : roundbits < 2 ^ 32) (divides : q ∣ ct.modulus) (fits : ¬ modulusTooLarge w ct.modulus) (h : LWE.Reduced ct)
    (boots : BootstrapsAt (bootstrapFunc w plat round g EK) s beta q ct.modulus) (even : 2 * beta ∣ x)
    (he : 4 * |e| < beta) (held : LWE.phase s ct ≡ x + e [ZMOD ct.modulus]) :
    Floors w s beta q x ct (evalFloor w plat round g EK ct beta roundbits) ↔ roundbits < 30 := by
  have pos : 0 < beta := powerBeta ▸ Nat.two_pow_pos a
  have room := lt_of_not_tooLarge fits
  have below := Nat.le_of_dvd (Nat.zero_lt_of_lt h.b_lt) divides
  constructor
  · intro floors
    by_contra large
    obtain ⟨ct', -, run, -⟩ := floors.floor
    exact evalFloor_stops (by omega) word pos (by rw [modulus]; omega) ct' run
  · intro small
    obtain ⟨c, rfl⟩ : ∃ c, b = a + 2 + c := by
      apply Nat.exists_eq_add_of_le
      apply (Nat.pow_le_pow_iff_right (show 1 < 2 by omega)).mp
      rw [pow_add, ← powerBeta, ← power]
      omega
    have size : q = 4 * (beta * 2 ^ c) := by
      rw [power, powerBeta, pow_add, pow_add]
      ring
    have quarters : 4 ∣ q := ⟨_, size⟩
    obtain ⟨m, rfl⟩ := even
    have fitsLow : ¬ modulusTooLarge w q := fun large => fits (large.trans_le (Nat.size_le_size below))
    obtain ⟨ct', noise, run, -, same, bound, value⟩ := evalFloor_clears boots
      (by rw [floorModulus_eq small (by rw [modulus]; omega), modulus]) size (by positivity) h divides fitsLow (by omega)
      (show 4 * |e| < 3 * beta by omega) (by exact_mod_cast held)
    exact ⟨⟨ct', noise, run, same, by omega, value⟩, halfSign_changesSign quarters below (by omega),
      sawtooth_changesSign quarters below (by omega)⟩

/-! ### Keys under the secret zero -/

/-- The accumulator stays as it is, and the switch subtracts nothing. -/
def zeroKeys (P : SingleKeyParams) : EvalKeys P where
  BSkey := some fun _ acc _ _ _ => some acc
  KSkey := some ⟨fun _ _ _ _ => 0, fun _ _ _ => 0⟩

section ZeroKeys
variable {c fmod : ℕ}

theorem roundqQ_exact_mul {q Q u : ℕ} (divides : q ∣ Q) (pos : 0 < Q) (small : u < q) :
    roundqQ exactRound (Q / q * u) q Q = u := by
  obtain ⟨t, rfl⟩ := divides
  have hq : 0 < q := by omega
  rw [roundqQ, exactRound, Nat.mul_div_cancel_left _ hq, show 2 * (t * u) * q + q * t = q * t + 2 * (q * t) * u by ring,
    Nat.add_mul_div_left _ _ (by omega), Nat.div_eq_of_lt (by omega), zero_add, Nat.mod_eq_of_lt small]

theorem keySwitch_zero_b {n N qKS : ℕ} (word : qKS ≤ 2 ^ w.bits) (baseKS digitCount : ℕ) {ctQN : LWECiphertext N}
    (small : ctQN.b < qKS) :
    (LWE.keySwitch w qKS (⟨fun _ _ _ _ => 0, fun _ _ _ => 0⟩ : LWE.SwitchingKey N n) baseKS digitCount ctQN).b = ctQN.b := by
  suffices kept : ∀ (l : List (Fin N × ℕ)) (ct : LWECiphertext n), ct.b < qKS →
      (l.foldl (LWE.keySwitchStep w qKS ⟨fun _ _ _ _ => 0, fun _ _ _ => 0⟩ baseKS ctQN) ct).b = ct.b from kept _ _ small
  intro l
  induction l with
  | nil => exact fun _ _ => rfl
  | cons x rest ih =>
    intro ct below
    have same : (LWE.keySwitchStep w qKS ⟨fun _ _ _ _ => 0, fun _ _ _ => 0⟩ baseKS ctQN ct x).b = ct.b := by
      simp only [LWE.keySwitchStep]
      rw [modSubFast_eq below (by omega) word, Nat.sub_zero, Nat.add_mod_right, Nat.mod_eq_of_lt below]
    rw [List.foldl_cons, ih _ (by rw [same]; exact below), same]

/-- The switch scales the body back to `fmod`. -/
theorem switch_zeroKeys {u : ℕ} {ctExt : LWECiphertext P.N} (same : P.qKS = P.Q) (word : P.Q ≤ 2 ^ w.bits) (posQ : 0 < P.Q)
    (divides : fmod ∣ P.Q) (small : u < fmod) (modulus : ctExt.modulus = P.Q) (body : ctExt.b = P.Q / fmod * u) :
    ∃ ct', switch w plat exactRound (zeroKeys P) fmod ctExt = .ok ct' ∧ ct'.b = u := by
  have scaled : P.Q / fmod * u < P.Q := by
    calc P.Q / fmod * u < P.Q / fmod * fmod :=
          Nat.mul_lt_mul_of_pos_left small (Nat.div_pos (Nat.le_of_dvd posQ divides) (by omega))
      _ = P.Q := Nat.div_mul_cancel divides
  have middle : (LWE.modSwitch exactRound P.qKS ctExt).b = P.Q / fmod * u := by
    have := roundqQ_exact_mul (dvd_refl P.Q) posQ scaled
    rw [Nat.div_self posQ, one_mul] at this
    simp only [LWE.modSwitch, modulus, body, same, this]
  refine ⟨_, rfl, ?_⟩
  change roundqQ exactRound (LWE.keySwitch _ _ _ _ _ _).b fmod (LWE.keySwitch _ _ _ _ _ _).modulus = u
  rw [(LWE.keySwitch_frame ..).1, keySwitch_zero_b (same ▸ word) _ _ (by rw [middle, same]; exact scaled), middle, same]
  exact roundqQ_exact_mul divides posQ small

theorem zeroKeys_bootstraps {beta : ℕ} (pos : 0 < beta) (same : P.qKS = P.Q) (word : P.Q < 2 ^ w.bits) (hc : 2 ≤ c)
    (room : c ≤ 2 * P.N) (small : 2 * P.N < 2 ^ 32) (posQ : 0 < P.Q) (divides : fmod ∣ P.Q) :
    BootstrapsAt (bootstrapFunc w plat exactRound g (zeroKeys P)) (fun _ => 0) beta c fmod := by
  intro f ct changes reduced modulus
  subst modulus
  have hb := reduced.b_lt
  have hu := changes.below ct.b hb
  have words := w.two_pow_32_le
  have factor : 0 < 2 * P.N % 2 ^ 32 / ct.modulus := by
    rw [Nat.mod_eq_of_lt small]
    exact Nat.div_pos room (by omega)
  have scaled : P.Q / fmod * f ct.b ct.modulus fmod < P.Q := by
    calc P.Q / fmod * f ct.b ct.modulus fmod < P.Q / fmod * fmod :=
          Nat.mul_lt_mul_of_pos_left hu (Nat.div_pos (Nat.le_of_dvd posQ divides) (by omega))
      _ = P.Q := Nat.div_mul_cancel divides
  -- the constant coefficient holds the value at the phase
  have first : sparseVector P.N (2 * P.N % 2 ^ 32 / ct.modulus) (ct.modulus >>> 1) (fun j =>
      mul w (P.Q / fmod) (f (modSub w ct.b j ct.modulus) ct.modulus fmod)) 0 = P.Q / fmod * f ct.b ct.modulus fmod := by
    have here : modSub w ct.b 0 ct.modulus = ct.b := by
      rw [modSub, Nat.mod_eq_of_lt hb, Nat.zero_mod, modSubFast_eq hb (by omega) (by omega), Nat.sub_zero,
        Nat.add_mod_right, Nat.mod_eq_of_lt hb]
    have inside : 0 < ct.modulus >>> 1 := by
      rw [Nat.shiftRight_eq_div_pow, pow_one]
      omega
    rw [sparseVector_eq factor]
    simp only [Fin.val_zero, Nat.zero_div, dvd_zero, inside, true_and, if_true, here]
    rw [NativeInteger.mul, wrap, Nat.mod_eq_of_lt (by omega)]
  obtain ⟨acc, core, body⟩ : ∃ acc : P.Acc, bootstrapFuncCore w g (zeroKeys P) ct f fmod = .ok acc ∧
      (acc.b.coeff 0).val = P.Q / fmod * f ct.b ct.modulus fmod := by
    refine ⟨_, rfl, ?_⟩
    rw [← ZMod.val_natCast_of_lt scaled, ← first]
  obtain ⟨ct', switched, value⟩ : ∃ ct', switch w plat exactRound (zeroKeys P) fmod (extract acc (acc.b.coeff 0).val) =
      .ok ct' ∧ ct'.b = f ct.b ct.modulus fmod := switch_zeroKeys same word.le posQ divides hu rfl body
  refine ⟨ct', 0, ?_, by simpa using pos, ?_⟩
  · rw [bootstrapFunc, core]
    exact switched
  · rw [LWE.phase_zero, LWE.phase_zero, BinFHEScheme.toNat_emod hb rfl, add_zero, value]

end ZeroKeys

/-- `N` coefficients and one entry, with the moduli `2 ^ 8` and `2 ^ 40`. -/
def zeroParams (N : ℕ) (pos : 0 < N) : SingleKeyParams where
  lwe := ⟨2 ^ 8, 2 ^ 40, 2 ^ 40, 1, N, 2, .UNIFORM_TERNARY, 1, 1⟩
  rgsw := { RingGSWCryptoParams.default with q := 2 ^ 8, Q := 2 ^ 40, N }
  same_N := rfl
  same_Q := rfl
  same_q := rfl
  N_pos := pos
  q_pos := Nat.two_pow_pos 8

theorem zeroParams_bootstraps {N : ℕ} (pos : 0 < N) (small : 2 * N < 2 ^ 32) {beta c k : ℕ} (posBeta : 0 < beta) (hc : 2 ≤ c)
    (room : c ≤ 2 * N) (hk : k ≤ 40) :
    BootstrapsAt (bootstrapFunc .w64 plat exactRound g (zeroKeys (zeroParams N pos))) (fun _ => 0) beta c (2 ^ k) :=
  zeroKeys_bootstraps posBeta rfl (Nat.pow_lt_pow_right (by decide) (by decide)) hc room small (Nat.two_pow_pos 40)
    (Nat.pow_dvd_pow 2 hk)

def ring128 : SingleKeyParams := zeroParams 128 (Nat.succ_pos 127)

/-- A ring of `2 ^ 30` coefficients. -/
def hugeRing : SingleKeyParams := zeroParams (2 ^ 30) (Nat.two_pow_pos 30)

theorem evalFloor_cleared :
    Floors (P := ring128) .w64 (fun _ => 0) (2 ^ 4) (2 ^ 8) 3200 ⟨fun _ => 0, 3203, 2 ^ 20, 4⟩
      (evalFloor .w64 .threeDigits exactRound ring128.rgsw.toGadget (zeroKeys ring128) ⟨fun _ => 0, 3203, 2 ^ 20, 4⟩
        (2 ^ 4) 0) := by
  have boots : BootstrapsAt (bootstrapFunc .w64 .threeDigits exactRound ring128.rgsw.toGadget (zeroKeys ring128))
      (fun _ => 0) (2 ^ 4) (2 ^ 8) (2 ^ 20) :=
    zeroParams_bootstraps _ (by decide) (by decide) (by decide) (by decide) (by decide)
  have held : LWE.phase (fun _ => 0) (⟨fun _ => 0, 3203, 2 ^ 20, 4⟩ : LWECiphertext ring128.n) = 3200 + 3 := LWE.phase_zero _
  refine (evalFloor_iff (a := 4) (b := 8) (e := 3) ?_ rfl rfl ?_ ?_ ?_ ?_ ⟨?_, ?_⟩ boots ?_ ?_
    (by rw [held]; rfl)).mpr ?_
  · rfl
  all_goals decide

/-- With `beta = 1` and a huge ring, thirty bits are the whole circle. -/
theorem evalFloor_thirty :
    BootstrapsAt (bootstrapFunc .w64 .threeDigits exactRound hugeRing.rgsw.toGadget (zeroKeys hugeRing)) (fun _ => 0) 1
        (2 ^ 31) (2 ^ 32) ∧
      ¬ Floors (P := hugeRing) .w64 (fun _ => 0) 1 (2 ^ 31) 2 ⟨fun _ => 0, 2, 2 ^ 32, 4⟩
        (evalFloor .w64 .threeDigits exactRound hugeRing.rgsw.toGadget (zeroKeys hugeRing) ⟨fun _ => 0, 2, 2 ^ 32, 4⟩
          1 30) := by
  refine ⟨zeroParams_bootstraps _ (by decide) (by decide) (by decide) (by decide) (by decide), ?_⟩
  intro floors
  obtain ⟨ct', -, run, -⟩ := floors.floor
  exact evalFloor_stops (by decide) (by decide) (by decide) (by decide) ct' run

end LWEGate
end MultiKeyFHE
