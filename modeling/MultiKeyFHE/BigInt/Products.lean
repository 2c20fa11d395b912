import MultiKeyFHE.BigInt.Arithmetic

/-!
# Products, powers and shifts of big integers

A row of the schoolbook product is a limb times a number, and the rows are summed up as big integers. Both shifts are one
loop: the limbs move up by some bits onto an overflow, which for a shift to the right is what is left of the lowest limb.
-/

namespace MultiKeyFHE.Ubint
open InPlace Radix

variable {l : LimbT} {m n : ℕ}

theorem dlimb_of_lt {x : ℕ} (below : x < 2 ^ l.limbBitLength * 2 ^ l.limbBitLength) : dlimb l x = x := by
  rw [← pow_add, ← two_mul] at below
  exact Nat.mod_eq_of_lt below

theorem shiftRight_eq_div (x : ℕ) : x >>> l.limbBitLength = x / 2 ^ l.limbBitLength := Nat.shiftRight_eq_div_pow ..

/-! ### Products -/

theorem product_fits {b a ofl : ℕ} (hb : b < 2 ^ l.limbBitLength) (ha : a < 2 ^ l.limbBitLength)
    (ho : ofl < 2 ^ l.limbBitLength) : ofl + b * a < 2 ^ l.limbBitLength * 2 ^ l.limbBitLength := by
  calc ofl + b * a < 2 ^ l.limbBitLength * (b + 1) := by nlinarith
    _ ≤ 2 ^ l.limbBitLength * 2 ^ l.limbBitLength := Nat.mul_le_mul_left _ hb

theorem mulLimbs_spec {b : ℕ} (hb : b < 2 ^ l.limbBitLength) (as : List ℕ) (ofl : ℕ) (ha : ∀ x ∈ as, x < 2 ^ l.limbBitLength)
    (ho : ofl < 2 ^ l.limbBitLength) :
    mulLimbs l b as ofl ≠ [] ∧ (∀ x ∈ mulLimbs l b as ofl, x < 2 ^ l.limbBitLength) ∧
      Nat.ofDigits (2 ^ l.limbBitLength) (mulLimbs l b as ofl) = ofl + b * Nat.ofDigits (2 ^ l.limbBitLength) as := by
  induction as generalizing ofl with
  | nil =>
    refine ⟨by simp [mulLimbs], by simpa [mulLimbs] using limb_lt ofl, ?_⟩
    rw [mulLimbs, Nat.ofDigits_singleton, limb_of_lt ho]
    simp
  | cons a as ih =>
    have fits := product_fits hb (ha a (by simp)) ho
    have carry : (ofl + b * a) >>> l.limbBitLength < 2 ^ l.limbBitLength := by
      rw [shiftRight_eq_div]
      exact Nat.div_lt_of_lt_mul fits
    obtain ⟨-, lt, value⟩ := ih _ (fun x hx => ha x (List.mem_cons_of_mem _ hx)) carry
    rw [mulLimbs, dlimb_of_lt fits]
    refine ⟨by simp, ?_, ?_⟩
    · intro x hx
      rcases List.mem_cons.mp hx with rfl | hx
      · exact limb_lt _
      · exact lt x hx
    · have product := limb_add_carry (l := l) (ofl + b * a)
      rw [Nat.ofDigits_cons, Nat.ofDigits_cons, value]
      calc limb l (ofl + b * a) + 2 ^ l.limbBitLength * ((ofl + b * a) >>> l.limbBitLength + b * Nat.ofDigits (2 ^ l.limbBitLength) as)
          = limb l (ofl + b * a) + 2 ^ l.limbBitLength * ((ofl + b * a) >>> l.limbBitLength) +
            b * (2 ^ l.limbBitLength * Nat.ofDigits (2 ^ l.limbBitLength) as) := by ring
        _ = ofl + b * (a + 2 ^ l.limbBitLength * Nat.ofDigits (2 ^ l.limbBitLength) as) := by rw [product]; ring

theorem row_stored {b : ℕ} (hb : b < 2 ^ l.limbBitLength) {as : List ℕ} (ha : ∀ x ∈ as, x < 2 ^ l.limbBitLength) (i : ℕ) :
    normalizeLimbs l (List.replicate i 0 ++ mulLimbs l b as 0) =
      stored l ((2 ^ l.limbBitLength) ^ i * (b * Nat.ofDigits (2 ^ l.limbBitLength) as)) := by
  have radix := one_lt_radix l
  obtain ⟨nonempty, lt, value⟩ := mulLimbs_spec hb as 0 ha (by omega)
  rw [normalizeLimbs_eq (by simp [nonempty]), Nat.ofDigits_append, Nat.ofDigits_replicate_zero, List.length_replicate, value,
    zero_add, zero_add]
  intro x hx
  rcases List.mem_append.mp hx with hx | hx
  · rw [List.eq_of_mem_replicate hx]
    omega
  · exact lt x hx

theorem mulRows_stored {as : List ℕ} (ha : ∀ x ∈ as, x < 2 ^ l.limbBitLength) (bs : List ℕ) (i sum : ℕ)
    (hb : ∀ x ∈ bs, x < 2 ^ l.limbBitLength)
    (fits : (sum + (2 ^ l.limbBitLength) ^ i * (Nat.ofDigits (2 ^ l.limbBitLength) bs * Nat.ofDigits (2 ^ l.limbBitLength) as)).size <
      2 ^ 32) :
    mulRows l as bs i (stored l sum) = stored l (sum + (2 ^ l.limbBitLength) ^ i *
      (Nat.ofDigits (2 ^ l.limbBitLength) bs * Nat.ofDigits (2 ^ l.limbBitLength) as)) := by
  induction bs generalizing i sum with
  | nil => simp [mulRows]
  | cons b bs ih =>
    have split : sum + (2 ^ l.limbBitLength) ^ i * (Nat.ofDigits (2 ^ l.limbBitLength) (b :: bs) * Nat.ofDigits (2 ^ l.limbBitLength) as) =
        sum + (2 ^ l.limbBitLength) ^ i * (b * Nat.ofDigits (2 ^ l.limbBitLength) as) +
          (2 ^ l.limbBitLength) ^ (i + 1) * (Nat.ofDigits (2 ^ l.limbBitLength) bs * Nat.ofDigits (2 ^ l.limbBitLength) as) := by
      rw [Nat.ofDigits_cons]
      ring
    rw [split] at fits ⊢
    have smaller : ∀ {x : ℕ}, x ≤ sum + (2 ^ l.limbBitLength) ^ i * (b * Nat.ofDigits (2 ^ l.limbBitLength) as) +
        (2 ^ l.limbBitLength) ^ (i + 1) * (Nat.ofDigits (2 ^ l.limbBitLength) bs * Nat.ofDigits (2 ^ l.limbBitLength) as) →
        x.size < 2 ^ 32 := fun le => fits_of_le le fits
    rw [mulRows, row_stored (hb b (by simp)) ha, add_stored (smaller (by omega)) (smaller (by omega))]
    exact ih (i + 1) _ (fun x hx => hb x (List.mem_cons_of_mem _ hx)) fits

theorem size_eq_one {x : ℕ} (one : x.size = 1) : x = 1 := by
  have above : x < 2 ^ 1 := one ▸ Nat.lt_size_self x
  have below : 0 < x := Nat.size_pos.mp (by omega)
  omega

theorem mul_stored (fitsM : m.size < 2 ^ 32) (fitsN : n.size < 2 ^ 32) (fits : (m * n).size < 2 ^ 32) :
    mul l (stored l m) (stored l n) = stored l (m * n) := by
  rw [mul, stored_msb fitsM, stored_msb fitsN]
  split
  · rename_i zero
    have product : m * n = 0 := by
      rcases zero with zero | zero
      · rw [Nat.size_eq_zero.mp zero, zero_mul]
      · rw [Nat.size_eq_zero.mp zero, mul_zero]
    rw [product]
    rfl
  · split
    · rename_i one
      rw [size_eq_one one, mul_one]
    · split
      · rename_i one
        rw [size_eq_one one, one_mul]
      · rw [← stored_zero (l := l), bySize]
        by_cases less : (stored l m).value.length < (stored l n).value.length
        · simp only [if_pos less]
          rw [mulRows_stored stored_lt _ 0 0 stored_lt] <;> rw [ofDigits_stored, ofDigits_stored, pow_zero, one_mul, zero_add]
          exact fits
        · simp only [if_neg less]
          rw [mulRows_stored stored_lt _ 0 0 stored_lt] <;>
            rw [ofDigits_stored, ofDigits_stored, pow_zero, one_mul, zero_add, mul_comm]
          exact fits

theorem exp_stored (fits : m.size < 2 ^ 32) (p : ℕ) (fits' : (m ^ p).size < 2 ^ 32) :
    exp l (stored l m) p = stored l (m ^ p) := by
  induction p using Nat.strong_induction_on with
  | _ p ih =>
    have radix := one_lt_radix l
    rw [exp]
    by_cases zero : p = 0
    · rw [if_pos zero, zero, pow_zero]
      exact stored_ofWord radix
    · by_cases one : p = 1
      · rw [if_neg zero, if_pos one, one, pow_one]
      · have halves : p >>> 1 = p / 2 := Nat.shiftRight_eq_div_pow ..
        have smaller : ∀ {e : ℕ}, 0 < e → e ≤ p → (m ^ e).size < 2 ^ 32 := by
          intro e pos le
          rcases Nat.eq_zero_or_pos m with rfl | positive
          · rw [zero_pow (by omega), Nat.size_zero]
            norm_num
          · exact fits_of_le (Nat.pow_le_pow_right positive le) fits'
        have half := smaller (e := p / 2) (by omega) (by omega)
        have square : m ^ (p / 2) * m ^ (p / 2) = m ^ (p / 2 * 2) := by rw [← sq, ← pow_mul]
        have whole := smaller (e := p / 2 * 2) (by omega) (by omega)
        rw [if_neg zero, if_neg one, halves, ih (p / 2) (by omega) half]
        dsimp only
        rw [mul_stored half half (by rwa [square]), square]
        split
        · rename_i odd
          have split : p / 2 * 2 + 1 = p := by
            rw [Nat.and_one_is_mod] at odd
            omega
          rw [mul_stored whole fits (by rwa [← pow_succ, split]), ← pow_succ, split]
        · rename_i even
          have split : p / 2 * 2 = p := by
            rw [Nat.and_one_is_mod] at even
            omega
          rw [split]

/-! ### Shifts -/

theorem join_words {D high low : ℕ} (hl : low < 2 ^ D) : high <<< D ||| low = high * 2 ^ D + low := by
  rw [← Nat.shiftLeft_add_eq_or_of_lt hl, Nat.shiftLeft_eq]

theorem shift_limb {D : ℕ} (hD : D ≤ l.limbBitLength) {v ofl : ℕ} (hv : v < 2 ^ l.limbBitLength) (ho : ofl < 2 ^ D) :
    ofl ||| dlimb l (v <<< D) = v * 2 ^ D + ofl ∧ (v * 2 ^ D + ofl) >>> l.limbBitLength < 2 ^ D := by
  have room : 2 ^ l.limbBitLength * 2 ^ D ≤ 2 ^ l.limbBitLength * 2 ^ l.limbBitLength :=
    Nat.mul_le_mul_left _ (Nat.pow_le_pow_right two_pos hD)
  have shifted : v * 2 ^ D + ofl < 2 ^ l.limbBitLength * 2 ^ D := by
    calc v * 2 ^ D + ofl < (v + 1) * 2 ^ D := by rw [add_mul, one_mul]; omega
      _ ≤ 2 ^ l.limbBitLength * 2 ^ D := Nat.mul_le_mul_right _ hv
  refine ⟨?_, ?_⟩
  · rw [dlimb_of_lt (by rw [Nat.shiftLeft_eq]; omega), Nat.or_comm, join_words ho]
  · rw [shiftRight_eq_div]
    exact Nat.div_lt_of_lt_mul shifted

theorem shiftLimbs_spec {D : ℕ} (hD : D ≤ l.limbBitLength) (vs : List ℕ) (ofl : ℕ) (hv : ∀ x ∈ vs, x < 2 ^ l.limbBitLength)
    (ho : ofl < 2 ^ D) :
    (shiftLimbs l D vs ofl).1.length = vs.length ∧ (∀ x ∈ (shiftLimbs l D vs ofl).1, x < 2 ^ l.limbBitLength) ∧
      (shiftLimbs l D vs ofl).2 < 2 ^ D ∧
      Nat.ofDigits (2 ^ l.limbBitLength) (shiftLimbs l D vs ofl).1 +
          (2 ^ l.limbBitLength) ^ vs.length * (shiftLimbs l D vs ofl).2 =
        ofl + 2 ^ D * Nat.ofDigits (2 ^ l.limbBitLength) vs := by
  induction vs generalizing ofl with
  | nil => simpa [shiftLimbs] using ho
  | cons v vs ih =>
    obtain ⟨merged, carry⟩ := shift_limb hD (hv v (by simp)) ho
    obtain ⟨length, lt, last, value⟩ := ih _ (fun x hx => hv x (List.mem_cons_of_mem _ hx)) carry
    have split := limb_add_carry (l := l) (v * 2 ^ D + ofl)
    simp only [shiftLimbs, merged]
    refine ⟨by simp [length], ?_, last, ?_⟩
    · intro x hx
      rcases List.mem_cons.mp hx with rfl | hx
      · exact limb_lt _
      · exact lt x hx
    · rw [Nat.ofDigits_cons, Nat.ofDigits_cons, List.length_cons, pow_succ]
      calc limb l (v * 2 ^ D + ofl) + 2 ^ l.limbBitLength * _ + _ = limb l (v * 2 ^ D + ofl) + 2 ^ l.limbBitLength *
            (Nat.ofDigits (2 ^ l.limbBitLength) (shiftLimbs l D vs ((v * 2 ^ D + ofl) >>> l.limbBitLength)).1 +
              (2 ^ l.limbBitLength) ^ vs.length * (shiftLimbs l D vs ((v * 2 ^ D + ofl) >>> l.limbBitLength)).2) := by ring
        _ = limb l (v * 2 ^ D + ofl) + 2 ^ l.limbBitLength * ((v * 2 ^ D + ofl) >>> l.limbBitLength) +
            2 ^ l.limbBitLength * (2 ^ D * Nat.ofDigits (2 ^ l.limbBitLength) vs) := by rw [value]; ring
        _ = ofl + 2 ^ D * (v + 2 ^ l.limbBitLength * Nat.ofDigits (2 ^ l.limbBitLength) vs) := by rw [split]; ring

/-- Shifting canonical limbs leaves canonical limbs. -/
theorem pushOverflow_eq {D : ℕ} (hD : D ≤ l.limbBitLength) {vs : List ℕ} {ofl : ℕ} (hv : ∀ x ∈ vs, x < 2 ^ l.limbBitLength)
    (ho : ofl < 2 ^ D) (top : (vs = [] ∧ ofl ≠ 0) ∨
      (vs ≠ [] ∧ (2 ^ l.limbBitLength) ^ (vs.length - 1) ≤ Nat.ofDigits (2 ^ l.limbBitLength) vs)) :
    pushOverflow l (shiftLimbs l D vs ofl) = digits (2 ^ l.limbBitLength) (ofl + 2 ^ D * Nat.ofDigits (2 ^ l.limbBitLength) vs) := by
  have radix := one_lt_radix l
  obtain ⟨length, lt, last, value⟩ := shiftLimbs_spec hD vs ofl hv ho
  have word : (shiftLimbs l D vs ofl).2 < 2 ^ l.limbBitLength := last.trans_le (Nat.pow_le_pow_right two_pos hD)
  rw [pushOverflow]
  split
  · rename_i pushed
    rw [limb_of_lt word, ← value, ← length, ← ofDigits_concat]
    refine Canonical.eq_digits radix ⟨by simp, ?_, .inl (by simpa using pushed)⟩
    intro x hx
    rcases List.mem_append.mp hx with hx | hx
    · exact lt x hx
    · rw [List.mem_singleton.mp hx]
      exact word
  · rename_i none
    rw [not_not.mp none, mul_zero, add_zero] at value
    rcases top with ⟨rfl, positive⟩ | ⟨nonempty, le⟩
    · exact absurd (not_not.mp none) positive
    · rw [← value]
      refine (canonical_of_le radix ?_ lt ?_).eq_digits radix
      · rw [← List.length_pos_iff, length]
        exact List.length_pos_of_ne_nil nonempty
      · rw [length, value]
        exact le.trans ((Nat.le_mul_of_pos_left _ (by positivity)).trans (Nat.le_add_left _ _))

theorem shiftByLimb_eq (shift : ℕ) : shift >>> l.log2LimbBitLength = shift / l.limbBitLength := by
  cases l <;> exact Nat.shiftRight_eq_div_pow ..

theorem shift_mask (shift : ℕ) : shift &&& (l.limbBitLength - 1) = shift % l.limbBitLength := by
  cases l
  · exact Nat.and_two_pow_sub_one_eq_mod shift 5
  · exact Nat.and_two_pow_sub_one_eq_mod shift 6

theorem two_pow_shift (shift : ℕ) :
    2 ^ shift = (2 ^ l.limbBitLength) ^ (shift / l.limbBitLength) * 2 ^ (shift % l.limbBitLength) := by
  rw [← pow_mul, ← pow_add, Nat.div_add_mod]

theorem lShiftLimbs_eq (positive : m ≠ 0) (shift : ℕ) :
    lShiftLimbs l (stored l m).value shift = digits (2 ^ l.limbBitLength) (m <<< shift) := by
  have radix := one_lt_radix l
  have bits := bits_pos l
  have bitShift : (if shift % l.limbBitLength ≠ 0 then pushOverflow l (shiftLimbs l (shift % l.limbBitLength) (stored l m).value 0)
      else (stored l m).value) = digits (2 ^ l.limbBitLength) (2 ^ (shift % l.limbBitLength) * m) := by
    split
    · rw [pushOverflow_eq (Nat.mod_lt _ bits).le stored_lt (by positivity), ofDigits_stored, zero_add]
      refine .inr ⟨stored_nonempty, ?_⟩
      rw [ofDigits_stored]
      exact le_ofDigits_digits radix positive
    · rename_i whole
      rw [not_not.mp whole, pow_zero, one_mul]
      rfl
  have shifted : m <<< shift = (2 ^ l.limbBitLength) ^ (shift / l.limbBitLength) * (2 ^ (shift % l.limbBitLength) * m) := by
    rw [Nat.shiftLeft_eq, two_pow_shift (l := l) shift]
    ring
  simp only [lShiftLimbs, shiftByLimb_eq, shift_mask, bitShift]
  rw [shifted]
  split
  · exact replicate_append_digits radix (by positivity) _
  · rename_i none
    rw [not_not.mp none, pow_zero, one_mul]

theorem size_shiftLeft_add (positive : m ≠ 0) (shift : ℕ) : usint (usint m.size + shift) = usint (m <<< shift).size := by
  rw [Nat.size_shiftLeft positive, usint, usint, usint, Nat.mod_add_mod]

theorem lShift_stored (fits : m.size < 2 ^ 32) (shift : ℕ) : lShift l (stored l m) shift = stored l (m <<< shift) := by
  rw [lShift, stored_msb fits]
  split
  · rename_i zero
    rw [Nat.size_eq_zero.mp zero, Nat.zero_shiftLeft]
    rfl
  · rename_i some
    have positive : m ≠ 0 := fun zero => some (by rw [zero, Nat.size_zero])
    rw [lShiftLimbs_eq positive, stored]
    refine congrArg (Ubint.mk · _) ?_
    rw [← size_shiftLeft_add positive, usint, usint, usint, Nat.mod_add_mod]

theorem lShiftEq_stored (fits : m.size < 2 ^ 32) (shift : ℕ) : lShiftEq l (stored l m) shift = stored l (m <<< shift) := by
  rw [← lShift_stored fits, lShiftEq, lShift, stored_msb fits]
  split
  · rename_i zero
    rw [Nat.size_eq_zero.mp zero]
    rfl
  · rfl

theorem add_radix_mul_div {shift : ℕ} (hs : shift ≤ l.limbBitLength) (v W : ℕ) :
    (v + 2 ^ l.limbBitLength * W) / 2 ^ shift = v / 2 ^ shift + 2 ^ (l.limbBitLength - shift) * W := by
  have radix : 2 ^ l.limbBitLength = 2 ^ shift * 2 ^ (l.limbBitLength - shift) := by
    rw [← pow_add, Nat.add_sub_cancel' hs]
  rw [radix, mul_assoc, Nat.add_mul_div_left _ _ (by positivity)]

/-- What a shift to the right keeps of the limbs, of which the first loses its low bits. -/
theorem rShift_split {shift v : ℕ} {vs : List ℕ} (kept : (stored l m).value.drop (shift / l.limbBitLength) = v :: vs) :
    m >>> shift = v >>> (shift % l.limbBitLength) +
      2 ^ (l.limbBitLength - shift % l.limbBitLength) * Nat.ofDigits (2 ^ l.limbBitLength) vs := by
  have bits := bits_pos l
  have bit := Nat.mod_lt shift bits
  have inside : shift / l.limbBitLength ≤ (stored l m).value.length := by
    by_contra out
    rw [List.drop_eq_nil_of_le (by omega)] at kept
    cases kept
  have value := ofDigits_stored l m
  rw [← List.take_append_drop (shift / l.limbBitLength) (stored l m).value, kept, Nat.ofDigits_append, List.length_take,
    Nat.min_eq_left inside, Nat.ofDigits_cons] at value
  have low : Nat.ofDigits (2 ^ l.limbBitLength) ((stored l m).value.take (shift / l.limbBitLength)) <
      (2 ^ l.limbBitLength) ^ (shift / l.limbBitLength) := by
    have := ofDigits_lt (one_lt_radix l) fun x hx => stored_lt (l := l) (n := m) x
      (List.mem_of_mem_take (i := shift / l.limbBitLength) hx)
    rwa [List.length_take, Nat.min_eq_left inside] at this
  rw [Nat.shiftRight_eq_div_pow, two_pow_shift (l := l) shift, ← Nat.div_div_eq_div_mul, ← value,
    Nat.add_mul_div_left _ _ (by positivity), Nat.div_eq_of_lt low, zero_add, Nat.shiftRight_eq_div_pow,
    add_radix_mul_div bit.le]

theorem lt_stored_length {i : ℕ} (below : i * l.limbBitLength < m.size) : i < (stored l m).value.length := by
  have positive : m ≠ 0 := by
    rintro rfl
    rw [Nat.size_zero] at below
    omega
  have bits := bits_pos l
  have length := stored_length (l := l) positive
  have pos := stored_length_pos (l := l) (n := m)
  have := (Nat.le_div_iff_mul_le bits).mpr (show i * l.limbBitLength ≤ m.size - 1 by omega)
  omega

theorem rShiftLimbs_eq {shift : ℕ} (below : shift < m.size) :
    rShiftLimbs l (stored l m).value shift = .ok (digits (2 ^ l.limbBitLength) (m >>> shift)) := by
  have bits := bits_pos l
  have bit := Nat.mod_lt shift bits
  have radix := one_lt_radix l
  have positive : m ≠ 0 := by
    rintro rfl
    rw [Nat.size_zero] at below
    omega
  have inside : shift / l.limbBitLength < (stored l m).value.length :=
    lt_stored_length ((Nat.div_mul_le_self ..).trans_lt below)
  obtain ⟨v, vs, kept⟩ : ∃ v vs, (stored l m).value.drop (shift / l.limbBitLength) = v :: vs :=
    List.exists_cons_of_ne_nil (by simpa using inside)
  have member : ∀ x ∈ v :: vs, x < 2 ^ l.limbBitLength := fun x hx => stored_lt (n := m) x (List.mem_of_mem_drop (kept ▸ hx))
  have split := rShift_split kept
  have reached : 2 ^ shift ≤ m := Nat.lt_size.mp below
  have top : (vs = [] ∧ v >>> (shift % l.limbBitLength) ≠ 0) ∨
      (vs ≠ [] ∧ (2 ^ l.limbBitLength) ^ (vs.length - 1) ≤ Nat.ofDigits (2 ^ l.limbBitLength) vs) := by
    by_cases empty : vs = []
    · refine .inl ⟨empty, fun zero => ?_⟩
      rw [zero, empty, Nat.ofDigits_nil, mul_zero, Nat.shiftRight_eq_div_pow] at split
      exact (Nat.div_pos reached (by positivity)).ne' split
    · refine .inr ⟨empty, ?_⟩
      have length : vs.length + 1 ≤ (stored l m).value.length := by
        rw [← List.length_cons, ← kept, List.length_drop]
        exact Nat.sub_le ..
      have last : vs.getLastD 0 ≠ 0 := by
        have same : (stored l m).value.getLastD 0 = vs.getLastD 0 := by
          conv_lhs => rw [← List.take_append_drop (shift / l.limbBitLength) (stored l m).value, kept]
          rw [List.getLastD_eq_getLast?, List.getLastD_eq_getLast?, List.getLast?_append_of_ne_nil _ (by simp),
            List.getLast?_cons_of_ne_nil empty]
        rw [← same]
        have canonical := canonical_digits radix m
        rcases canonical.top with top | single
        · exact top
        · have : 0 < vs.length := List.length_pos_of_ne_nil empty
          have : (stored l m).value.length = 1 := single
          omega
      have canonical : Canonical (2 ^ l.limbBitLength) vs :=
        ⟨empty, fun x hx => member x (List.mem_cons_of_mem _ hx), .inl last⟩
      have nonzero : Nat.ofDigits (2 ^ l.limbBitLength) vs ≠ 0 := by
        intro zero
        have same := canonical.eq_digits radix
        rw [zero] at same
        rw [same] at last
        exact last rfl
      have le := le_ofDigits_digits radix nonzero
      rwa [← canonical.eq_digits radix] at le
  have ofl : v >>> (shift % l.limbBitLength) < 2 ^ (l.limbBitLength - shift % l.limbBitLength) := by
    rw [Nat.shiftRight_eq_div_pow]
    refine Nat.div_lt_of_lt_mul ?_
    rw [← pow_add, Nat.add_sub_cancel' bit.le]
    exact member v (by simp)
  simp only [rShiftLimbs, shiftByLimb_eq, shift_mask, kept]
  rw [pushOverflow_eq (Nat.sub_le ..) (fun x hx => member x (List.mem_cons_of_mem _ hx)) ofl top, ← split]

theorem size_shiftRight (m shift : ℕ) : (m >>> shift).size = m.size - shift := by
  refine eq_of_forall_lt_iff fun i => ?_
  rw [Nat.lt_size, Nat.shiftRight_eq_div_pow, Nat.le_div_iff_mul_le (by positivity), ← pow_add, ← Nat.lt_size]
  omega

theorem rShift_msb (fits : m.size < 2 ^ 32) (shift : ℕ) : m.size - shift = usint (m >>> shift).size := by
  rw [size_shiftRight, usint, Nat.mod_eq_of_lt (by omega)]

theorem rShift_stored (fits : m.size < 2 ^ 32) (shift : ℕ) : rShift l (stored l m) shift = .ok (stored l (m >>> shift)) := by
  rw [rShift, stored_msb fits]
  split
  · rename_i gone
    rw [Nat.shiftRight_eq_div_pow, Nat.div_eq_of_lt (Nat.size_le.mp gone), stored_zero]
    rfl
  · rename_i some
    rw [rShiftLimbs_eq (not_le.mp some), rShift_msb fits]
    rfl

theorem rShiftEq_stored (fits : m.size < 2 ^ 32) (shift : ℕ) :
    rShiftEq l (stored l m) shift = .ok (stored l (m >>> shift)) := by
  rw [← rShift_stored fits, rShiftEq, rShift, stored_msb fits]
  split
  · have cleared : ((stored l m).value.take 1).set 0 0 = [0] := by
      obtain ⟨x, rest, shape⟩ := List.exists_cons_of_ne_nil (stored_nonempty (l := l) (n := m))
      rw [shape]
      rfl
    rw [cleared]
    rfl
  · rfl

end MultiKeyFHE.Ubint
