import MultiKeyFHE.Library.Radix
import MultiKeyFHE.Polynomial.Extraction

/-!
# Digits and powers of the base

`BaseDecompose` cuts the coefficients of a polynomial into windows of bits, one bit after the other, and `PowersOfBase`
multiplies a polynomial by the powers of the base. The last window may reach beyond the word.
-/

namespace MultiKeyFHE
open NativeInteger NumberTheoreticTransform Negacyclic NegPoly

namespace NativeInteger
variable (w : NativeSize)

/-- A shift by the width of the word or more is undefined. -/
def getBitAtIndex (value index : ℕ) : Except Fault ℕ :=
  if index = 0 then .error (.mathError "Zero index in GetBitAtIndex")
  else if w.bits ≤ index - 1 then .error .undefinedShift
  else .ok ((value >>> (index - 1)) &&& 0x1)

/-- One pass of the loop over the powers of two below the base. -/
def digitStep (value newIndex : ℕ) (digit k : ℕ) : Except Fault ℕ := do
  let bit ← getBitAtIndex w value (newIndex + k)
  return digit + bit * 1 <<< k

/-- The base is at most `2 ^ 31`, where the powers of two below it are words. -/
def getDigitAtIndexForBase (value index base : ℕ) : Except Fault ℕ :=
  let digitLen := Nat.clog 2 base
  (List.range digitLen).foldlM (digitStep w value (1 + (index - 1) * digitLen)) 0

end NativeInteger

namespace WordVector

def getDigitAtIndexForBase (w : NativeSize) (a : WordVector) (index base : ℕ) : Except Fault WordVector := do
  let values ← a.values.mapM fun v => NativeInteger.getDigitAtIndexForBase w v index base
  return { a with values }

end WordVector

namespace PolyImpl
variable (w : NativeSize) (c : Compiler) (arbitrarySwitchFormat : PolyImpl → Except Fault PolyImpl)

/-- `nWindows`. -/
def nWindows (modulus baseBits : ℕ) : ℕ := modulus.size / baseBits + if modulus.size % baseBits > 0 then 1 else 0

/-- `xDigit` of one pass, in the format of the answer. -/
def xDigit (a x : PolyImpl) (baseBits : ℕ) (evalModeAnswer : Bool) (i : ℕ) (cache : Cache) : Except Fault PolyImpl × Cache :=
  let digit := do
    let values ← x.getValues
    let digits ← values.getDigitAtIndexForBase w (i + 1) (1 <<< baseBits)
    (⟨a.params, .evaluation, none⟩ : PolyImpl).setValues digits x.format
  match digit with
  | .error fault => (.error fault, cache)
  | .ok digit => if evalModeAnswer then digit.switchFormat w c arbitrarySwitchFormat cache else (.ok digit, cache)

def xDigits (a x : PolyImpl) (baseBits : ℕ) (evalModeAnswer : Bool) : List ℕ → Cache → Except Fault (List PolyImpl) × Cache
  | [], cache => (.ok [], cache)
  | i :: rest, cache =>
    match xDigit w c arbitrarySwitchFormat a x baseBits evalModeAnswer i cache with
    | (.error fault, cache) => (.error fault, cache)
    | (.ok digit, cache) =>
      let out := xDigits a x baseBits evalModeAnswer rest cache
      ((digit :: ·) <$> out.1, out.2)

def baseDecompose (a : PolyImpl) (baseBits : ℕ) (evalModeAnswer : Bool) (cache : Cache) : Except Fault (List PolyImpl) × Cache :=
  if baseBits = 0 then (.error .divisionByZero, cache)
  else
    match a.setFormat w c arbitrarySwitchFormat .coefficient cache with
    | (.error fault, cache) => (.error fault, cache)
    | (.ok x, cache) =>
      xDigits w c arbitrarySwitchFormat a x baseBits evalModeAnswer (List.range (nWindows a.params.modulus baseBits)) cache

/-- `shift` is a word. -/
def powersOfBase (a : PolyImpl) (baseBits : ℕ) : Except Fault (List PolyImpl) :=
  if baseBits = 0 then .error .divisionByZero
  else (List.range (nWindows a.params.modulus baseBits)).mapM fun i =>
    a.timesScalar w (modExp w 2 (wrap w (i * baseBits)) a.params.modulus)

end PolyImpl

variable {w : NativeSize} {c : Compiler} {arbitrarySwitchFormat : PolyImpl → Except Fault PolyImpl} {q L psi rho b i : ℕ}

/-! ### Digits -/

theorem getBitAtIndex_ok {v j : ℕ} (inside : j < w.bits) : getBitAtIndex w v (1 + j) = .ok (v / 2 ^ j % 2) := by
  unfold getBitAtIndex
  rw [if_neg (by omega), if_neg (by omega), Nat.add_sub_cancel_left, Nat.and_one_is_mod, Nat.shiftRight_eq_div_pow]

theorem digitSteps_ok {v s n : ℕ} (inside : s + n ≤ w.bits) :
    (List.range n).foldlM (digitStep w v (1 + s)) 0 = .ok (v / 2 ^ s % 2 ^ n) := by
  induction n with
  | zero => simp [Nat.mod_one]; rfl
  | succ n ih =>
    rw [List.range_succ, List.foldlM_append, ih (by omega)]
    simp only [bind, Except.bind, List.foldlM_cons, List.foldlM_nil, digitStep]
    rw [show 1 + s + n = 1 + (s + n) by omega, getBitAtIndex_ok (by omega)]
    simp only [pure, Except.pure]
    rw [Nat.mod_pow_succ, Nat.div_div_eq_div_mul, ← pow_add, Nat.shiftLeft_eq, one_mul, mul_comm]

/-- The pass that reads beyond the word ends the loop. -/
theorem digitSteps_fail {v s n : ℕ} (start : s ≤ w.bits) (beyond : w.bits < s + n) :
    (List.range n).foldlM (digitStep w v (1 + s)) 0 = .error .undefinedShift := by
  induction n with
  | zero => omega
  | succ n ih =>
    rw [List.range_succ, List.foldlM_append]
    by_cases before : w.bits < s + n
    · rw [ih before]
      rfl
    · rw [digitSteps_ok (by omega)]
      simp only [bind, Except.bind, List.foldlM_cons, List.foldlM_nil, digitStep, getBitAtIndex]
      rw [if_neg (by omega), if_pos (by omega)]

theorem clog_base (b : ℕ) : Nat.clog 2 (1 <<< b) = b := by
  rw [Nat.shiftLeft_eq, one_mul, Nat.clog_pow 2 b Nat.one_lt_two]

theorem digit_ok {v : ℕ} (inside : (i + 1) * b ≤ w.bits) :
    getDigitAtIndexForBase w v (i + 1) (1 <<< b) = .ok (v / 2 ^ (i * b) % 2 ^ b) := by
  unfold getDigitAtIndexForBase
  rw [clog_base, Nat.add_sub_cancel]
  exact digitSteps_ok (by rw [← Nat.succ_mul]; exact inside)

theorem digit_fail {v : ℕ} (start : i * b ≤ w.bits) (beyond : w.bits < (i + 1) * b) :
    getDigitAtIndexForBase w v (i + 1) (1 <<< b) = .error .undefinedShift := by
  unfold getDigitAtIndexForBase
  rw [clog_base, Nat.add_sub_cancel]
  exact digitSteps_fail start (by rw [← Nat.succ_mul]; exact beyond)

/-- The digits of the coefficients. -/
def digitsAt (b i : ℕ) (x : List ℕ) : List ℕ := x.map fun v => v / 2 ^ (i * b) % 2 ^ b

theorem digits_ok {x : List ℕ} (inside : (i + 1) * b ≤ w.bits) :
    (⟨x, q⟩ : WordVector).getDigitAtIndexForBase w (i + 1) (1 <<< b) = .ok ⟨digitsAt b i x, q⟩ := by
  unfold WordVector.getDigitAtIndexForBase
  rw [Run.mapM_eq_map fun v _ => digit_ok (v := v) inside]
  rfl

theorem digits_fail {x : List ℕ} (some : x ≠ []) (start : i * b ≤ w.bits) (beyond : w.bits < (i + 1) * b) :
    (⟨x, q⟩ : WordVector).getDigitAtIndexForBase w (i + 1) (1 <<< b) = .error .undefinedShift := by
  obtain ⟨v, rest, rfl⟩ := List.exists_cons_of_ne_nil some
  unfold WordVector.getDigitAtIndexForBase
  rw [List.mapM_cons, digit_fail start beyond]
  rfl

/-! ### Windows -/

theorem size_le_windows (hb : 1 ≤ b) : q.size ≤ PolyImpl.nWindows q b * b := by
  have split := Nat.div_add_mod q.size b
  have low := Nat.mod_lt q.size hb
  unfold PolyImpl.nWindows
  rw [add_mul, mul_comm (q.size / b)]
  split
  · omega
  · omega

theorem last_window (hb : 1 ≤ b) (some : 0 < q) : ∃ last, PolyImpl.nWindows q b = last + 1 ∧ last * b < q.size := by
  have split := Nat.div_add_mod q.size b
  have low := Nat.mod_lt q.size hb
  have bits := Nat.size_pos.mpr some
  unfold PolyImpl.nWindows
  by_cases full : q.size % b > 0
  · rw [if_pos full]
    refine ⟨q.size / b, rfl, ?_⟩
    rw [mul_comm]
    omega
  · have whole : b * (q.size / b) = q.size := by omega
    have more : q.size / b ≠ 0 := by
      intro none
      rw [none, mul_zero] at whole
      omega
    obtain ⟨last, next⟩ := Nat.exists_eq_succ_of_ne_zero more
    rw [next, Nat.succ_eq_add_one, mul_add, mul_one, mul_comm] at whole
    rw [if_neg full, next]
    exact ⟨last, rfl, by omega⟩

theorem size_le_bits (room : ¬ modulusTooLarge w q) : q.size ≤ w.bits := by
  have max := w.bits_eq
  unfold modulusTooLarge at room
  omega

/-! ### Where the functions work -/

/-- A modulus that vectors admit and, where a format is changed or evaluations are multiplied, a ring with transforms. -/
structure Digital (w : NativeSize) (q L psi rho : ℕ) (transforms : Prop) (cache : Cache) : Prop where
  two_le : 2 ≤ q
  room : ¬ modulusTooLarge w q
  root : psi ≠ 0
  ring : transforms → TransformRing w q L psi
  inForce : transforms → InForce w q L psi rho cache

variable {f g : NativePoly (2 ^ L) q} {x : List ℕ} {format : Format} {cache : Cache}

theorem setValues_ok (root : psi ≠ 0) (a : PolyImpl) (params : a.params = ringParams q L psi) (length : x.length = 2 ^ L) :
    a.setValues ⟨x, q⟩ format = .ok (polyOf q L psi format x) := by
  unfold PolyImpl.setValues
  rw [params, if_neg (show ¬ (ringParams q L psi).rootOfUnity = 0 from root), if_neg (by simp [ringParams, length])]
  rfl

theorem Digital.word (digital : Digital w q L psi rho transforms cache) : 2 * q ≤ 2 ^ w.bits := by
  have small := lt_of_not_tooLarge digital.room
  omega

theorem timesScalar_ok (digital : Digital w q L psi rho (format = .evaluation) cache) (rep : Represents rho format f x)
    (s : ℕ) : Gives psi rho format (const (s : ZMod q) * f) ((polyOf q L psi format x).timesScalar w s) := by
  have pos : 0 < q := by
    have := digital.two_le
    omega
  have word := digital.word
  have below : s % q < q := Nat.mod_lt _ pos
  have scaled : ∀ i : Fin (2 ^ L), view rho format (const (s : ZMod q) * f) i = (s : ZMod q) * view rho format f i := by
    cases format with
    | coefficient => exact fun i => coeff_const_mul _ f i
    | evaluation => exact view_const_mul ((digital.inForce rfl).ring (digital.ring rfl)).half _
  have product := WordVector.modMulScalar_eq (w := w) (a := ⟨x, q⟩) pos s
  refine ⟨x.map fun a => modMulFastConst w a (s % q) q (wrap w (s % q * 2 ^ w.bits / q)), ?_, ?_, ?_⟩
  · simp only [PolyImpl.timesScalar, polyOf, PolyImpl.getValues]
    dsimp only [bind, Except.bind]
    rw [product]
    exact setValues_ok digital.root _ rfl (by rw [List.length_map, rep.shows.length])
  · refine rep.shows.map fun i a ha value => ?_
    have small := rep.lt a ha
    rw [modMulFastConst_eq (by omega) below word, ZMod.natCast_mod, Nat.cast_mul, ZMod.natCast_mod, value, scaled, mul_comm]
  · intro r hr
    obtain ⟨a, ha, rfl⟩ := List.mem_map.mp hr
    have small := rep.lt a ha
    exact modMulFastConst_lt (by omega) below (by omega)

/-! ### Changes of format -/

theorem TransformRing.oddRing (ring : TransformRing w q L psi) : OddRing w q L psi := by
  have admissible := ring.admissible
  have odd : q % 2 = 1 := Nat.odd_iff.mp (Nat.coprime_two_left.mp admissible.buildable.odd)
  have small := ring.small
  exact ⟨odd, ring.prime.two_le, ring.room, ring.lt, ring.half, by omega⟩

variable (c arbitrarySwitchFormat) in
/-- A vector of evaluations goes back to its coefficients, and the same root stays in force. -/
theorem setFormat_back [NeZero q] (ring : TransformRing w q L psi) (inForce : InForce w q L psi rho cache)
    (rep : Represents rho .evaluation f x) :
    ∃ cache', (polyOf q L psi .evaluation x).setFormat w c arbitrarySwitchFormat .coefficient cache =
      (.ok (polyOf q L psi .coefficient (toValues f)), cache') ∧ InForce w q L psi rho cache' := by
  have root := inForce.ring ring
  obtain ⟨ledger, mirrors, rooted, recorded⟩ := inForce
  have own := ledger.record_rootFor (t := ⟨psi, 2 ^ (L + 1), q⟩) ring.hasTables
  have works : WorksWith w q L psi rho cache :=
    ⟨ledger, mirrors, (Prod.mk.inj (Option.some.inj (own.symm.trans recorded))).2⟩
  obtain ⟨cache', switched, -⟩ :=
    switch_back (c := c) arbitrarySwitchFormat ring.oddRing root.oddRing ring.one ring.small rep works
  refine ⟨cache', switched, ledger.record ⟨psi, 2 ^ (L + 1), q⟩, ?_, rooted.record ring.admissible, by rw [record_twice, recorded]⟩
  have left := congrArg Prod.snd switched
  rw [PolyImpl.setFormat, if_pos (by simp [polyOf]),
    PolyImpl.switchFormat_eq arbitrarySwitchFormat (polyOf_holds rep.shows.length) ring.oddRing.guard rfl rfl] at left
  dsimp only at left
  rw [withTables_snd] at left
  rw [← left]
  exact mirrors.preCompute_snd ring.admissible.buildable

/-! ### The loop -/

/-- The format of the answer. -/
def answerFormat (evalModeAnswer : Bool) : Format := if evalModeAnswer then .evaluation else .coefficient

theorem digitsAt_lt (x : List ℕ) (reduced : ∀ a ∈ x, a < q) :
    ∀ d ∈ digitsAt b i x, d < q ∧ d < 2 ^ b := by
  intro d hd
  obtain ⟨v, hv, rfl⟩ := List.mem_map.mp hd
  exact ⟨((Nat.mod_le _ _).trans (Nat.div_le_self _ _)).trans_lt (reduced v hv), Nat.mod_lt _ (by positivity)⟩

variable (c arbitrarySwitchFormat) in
theorem xDigit_ok {evalModeAnswer : Bool} (digital : Digital w q L psi rho (evalModeAnswer = true) cache)
    (a : PolyImpl) (params : a.params = ringParams q L psi) (length : x.length = 2 ^ L) (reduced : ∀ v ∈ x, v < q)
    (inside : (i + 1) * b ≤ w.bits) :
    ∃ U, (∀ cache, (evalModeAnswer = true → InForce w q L psi rho cache) → ∃ cache',
        a.xDigit w c arbitrarySwitchFormat (polyOf q L psi .coefficient x) b evalModeAnswer i cache =
          (.ok (polyOf q L psi (answerFormat evalModeAnswer) U), cache') ∧
        (evalModeAnswer = true → InForce w q L psi rho cache')) ∧
      Represents rho (answerFormat evalModeAnswer) (NativePoly.ofValues (digitsAt b i x) : NativePoly (2 ^ L) q) U := by
  have digits := digits_ok (q := q) (x := x) inside
  have rep : Represents rho .coefficient (NativePoly.ofValues (digitsAt b i x) : NativePoly (2 ^ L) q) (digitsAt b i x) :=
    ofValues_represents (by rw [digitsAt, List.length_map, length]) fun d hd => (digitsAt_lt x reduced d hd).1
  have stored : (⟨a.params, .evaluation, none⟩ : PolyImpl).setValues ⟨digitsAt b i x, q⟩ .coefficient = _ :=
    setValues_ok digital.root _ params rep.shows.length
  cases evalModeAnswer with
  | false =>
    refine ⟨digitsAt b i x, fun cache _ => ⟨cache, ?_, fun no => by cases no⟩, rep⟩
    unfold PolyImpl.xDigit
    simp only [polyOf, PolyImpl.getValues]
    dsimp only [bind, Except.bind]
    rw [digits]
    dsimp only
    rw [stored]
    rfl
  | true =>
    have ring := digital.ring rfl
    obtain ⟨U, switches, rep'⟩ := switch_reduced (c := c) arbitrarySwitchFormat ring ((digital.inForce rfl).ring ring) rep
    refine ⟨U, fun cache inForce => ?_, rep'⟩
    obtain ⟨cache', switched, inForce'⟩ := switches cache (inForce rfl)
    refine ⟨cache', ?_, fun _ => inForce'⟩
    unfold PolyImpl.xDigit
    simp only [polyOf, PolyImpl.getValues]
    dsimp only [bind, Except.bind]
    rw [digits]
    dsimp only
    rw [stored]
    exact switched

theorem xDigit_fail (a : PolyImpl) {evalModeAnswer : Bool} (length : x.length = 2 ^ L) (start : i * b ≤ w.bits)
    (beyond : w.bits < (i + 1) * b) :
    a.xDigit w c arbitrarySwitchFormat (polyOf q L psi .coefficient x) b evalModeAnswer i cache =
      (.error .undefinedShift, cache) := by
  have some : x ≠ [] := List.ne_nil_of_length_pos (by rw [length]; positivity)
  unfold PolyImpl.xDigit
  simp only [polyOf, PolyImpl.getValues]
  dsimp only [bind, Except.bind]
  rw [digits_fail some start beyond]

variable (c arbitrarySwitchFormat) in
theorem xDigits_ok {evalModeAnswer : Bool} (digital : Digital w q L psi rho (evalModeAnswer = true) cache)
    (a : PolyImpl) (params : a.params = ringParams q L psi) (length : x.length = 2 ^ L) (reduced : ∀ v ∈ x, v < q) :
    ∃ U : ℕ → List ℕ, (∀ i, (i + 1) * b ≤ w.bits →
        Represents rho (answerFormat evalModeAnswer) (NativePoly.ofValues (digitsAt b i x) : NativePoly (2 ^ L) q) (U i)) ∧
      ∀ (is : List ℕ) (cache : Cache), (∀ i ∈ is, (i + 1) * b ≤ w.bits) →
        (evalModeAnswer = true → InForce w q L psi rho cache) → ∃ cache',
          a.xDigits w c arbitrarySwitchFormat (polyOf q L psi .coefficient x) b evalModeAnswer is cache =
            (.ok (is.map fun i => polyOf q L psi (answerFormat evalModeAnswer) (U i)), cache') := by
  choose U pass rep using fun i (inside : (i + 1) * b ≤ w.bits) =>
    xDigit_ok c arbitrarySwitchFormat digital a params length reduced inside
  refine ⟨fun i => if inside : (i + 1) * b ≤ w.bits then U i inside else [], fun i inside => ?_, fun is => ?_⟩
  · dsimp only
    rw [dif_pos inside]
    exact rep i inside
  induction is with
  | nil => exact fun cache _ _ => ⟨cache, rfl⟩
  | cons i is ih =>
    intro cache inside inForce
    obtain ⟨cache₁, once, inForce₁⟩ := pass i (inside i (by simp)) cache inForce
    obtain ⟨cache₂, later⟩ := ih cache₁ (fun j hj => inside j (List.mem_cons_of_mem _ hj)) inForce₁
    refine ⟨cache₂, ?_⟩
    rw [PolyImpl.xDigits, once]
    dsimp only
    rw [later, List.map_cons, dif_pos (inside i (by simp))]
    rfl

/-- A window beyond the word leaves no answer. -/
theorem xDigits_fail (a : PolyImpl) {evalModeAnswer : Bool} (length : x.length = 2 ^ L) (start : i * b ≤ w.bits)
    (beyond : w.bits < (i + 1) * b) (is : List ℕ) (cache : Cache) (window : i ∈ is) (us : List PolyImpl) :
    (a.xDigits w c arbitrarySwitchFormat (polyOf q L psi .coefficient x) b evalModeAnswer is cache).1 ≠ .ok us := by
  induction is generalizing cache us with
  | nil => cases window
  | cons j is ih =>
    rw [PolyImpl.xDigits]
    rcases List.mem_cons.mp window with rfl | later
    · rw [xDigit_fail a length start beyond]
      simp
    · match a.xDigit w c arbitrarySwitchFormat (polyOf q L psi .coefficient x) b evalModeAnswer j cache with
      | (.error fault, cache) => simp
      | (.ok digit, cache) =>
        dsimp only
        intro ok
        have fails := ih cache later
        cases run : (a.xDigits w c arbitrarySwitchFormat (polyOf q L psi .coefficient x) b evalModeAnswer is cache).1 with
        | error fault => simp [run] at ok
        | ok us' => exact fails us' run

/-! ### Recomposition -/

/-- The digits and the powers that the functions return, by the coefficients and the polynomials they stand for. -/
structure Recomposition (w : NativeSize) (c : Compiler) (arbitrarySwitchFormat : PolyImpl → Except Fault PolyImpl)
    (q L psi rho b : ℕ) (f g : NativePoly (2 ^ L) q) (x s : PolyImpl) (evalModeAnswer : Bool) (cache : Cache)
    (d : ℕ) (digits U P : ℕ → List ℕ) (power : ℕ → NativePoly (2 ^ L) q) : Prop where
  decomposed : (x.baseDecompose w c arbitrarySwitchFormat b evalModeAnswer cache).1 =
    .ok ((List.range d).map fun i => polyOf q L psi (answerFormat evalModeAnswer) (U i))
  multiplied : s.powersOfBase w b = .ok ((List.range d).map fun i => polyOf q L psi s.format (P i))
  small : ∀ i < d, (digits i).length = 2 ^ L ∧ ∀ a ∈ digits i, a < 2 ^ b
  answer : ∀ i < d, Represents rho (answerFormat evalModeAnswer) (NativePoly.ofValues (digits i) : NativePoly (2 ^ L) q) (U i)
  powers : ∀ i < d, Represents rho s.format (power i) (P i)
  sum : f = ∑ i ∈ Finset.range d, const (2 ^ (i * b) : ZMod q) * NativePoly.ofValues (digits i)
  product : ∑ i ∈ Finset.range d, NativePoly.ofValues (digits i) * power i = f * g

/-- The digits of the first polynomial recompose it, and with the powers of the second their product. No shift is
undefined. -/
def Recomposes (w : NativeSize) (c : Compiler) (arbitrarySwitchFormat : PolyImpl → Except Fault PolyImpl)
    (q L psi rho b : ℕ) (f g : NativePoly (2 ^ L) q) (x s : PolyImpl) (evalModeAnswer : Bool) (cache : Cache) : Prop :=
  ∃ d digits U P power, Recomposition w c arbitrarySwitchFormat q L psi rho b f g x s evalModeAnswer cache d digits U P power

theorem ofValues_coeff (x : List ℕ) (k : Fin (2 ^ L)) :
    (NativePoly.ofValues x : NativePoly (2 ^ L) q).coeff k = ((x.getD k 0 : ℕ) : ZMod q) := rfl

theorem sum_digitsAt {d : ℕ} (x : List ℕ) (small : ∀ v ∈ x, v < 2 ^ (d * b)) :
    ∑ i ∈ Finset.range d, const (2 ^ (i * b) : ZMod q) * NativePoly.ofValues (digitsAt b i x) =
      (NativePoly.ofValues x : NativePoly (2 ^ L) q) := by
  ext k
  have entry : ∀ i, (digitsAt b i x).getD k 0 = x.getD k 0 / (2 ^ b) ^ i % 2 ^ b := by
    intro i
    rw [← pow_mul, mul_comm b, digitsAt]
    by_cases inside : k.val < x.length <;> simp [inside]
  have below : x.getD k 0 < (2 ^ b) ^ d := by
    rw [← pow_mul, mul_comm]
    by_cases inside : k.val < x.length
    · rw [List.getD_eq_getElem _ _ inside]
      exact small _ (List.getElem_mem inside)
    · rw [List.getD_eq_default _ _ (not_lt.mp inside)]
      positivity
  have whole := Radix.sum_digits (2 ^ b) (x.getD k 0) d
  rw [Nat.mod_eq_of_lt below, ← Finset.sum_range fun i => x.getD k 0 / (2 ^ b) ^ i % 2 ^ b * (2 ^ b) ^ i] at whole
  have cast := congrArg (Nat.cast : ℕ → ZMod q) whole
  rw [coeff_sum, ofValues_coeff, ← cast]
  push_cast
  refine Finset.sum_congr rfl fun i _ => ?_
  rw [coeff_const_mul, ofValues_coeff, entry, mul_comm, ← pow_mul, ← pow_mul, mul_comm b]

theorem powersOfBase_ok {s : List ℕ} (digital : Digital w q L psi rho (format = .evaluation) cache)
    (rep : Represents rho format g s) (hb : 1 ≤ b) :
    ∃ P : ℕ → List ℕ, (∀ i, Represents rho format (const (2 ^ (i * b) : ZMod q) * g) (P i)) ∧
      (polyOf q L psi format s).powersOfBase w b =
        .ok ((List.range (PolyImpl.nWindows q b)).map fun i => polyOf q L psi format (P i)) := by
  have two := digital.two_le
  have word := digital.word
  choose P run represents using fun i => timesScalar_ok digital rep (2 ^ (i * b) % q)
  have cast : ∀ i, ((2 ^ (i * b) % q : ℕ) : ZMod q) = 2 ^ (i * b) := fun i => by
    rw [ZMod.natCast_mod, Nat.cast_pow, Nat.cast_two]
  refine ⟨P, fun i => by rw [← cast i]; exact represents i, ?_⟩
  unfold PolyImpl.powersOfBase
  rw [if_neg (by omega)]
  apply Run.mapM_eq_map
  intro i hi
  obtain ⟨last, windows, start⟩ := last_window hb (show 0 < q by omega)
  have le : i ≤ last := by
    have below := List.mem_range.mp hi
    rw [show (polyOf q L psi format s).params.modulus = q from rfl, windows] at below
    omega
  have shift : i * b < 2 ^ w.bits := by
    have mono := Nat.mul_le_mul_right b le
    have bits := size_le_bits digital.room
    have large := Nat.lt_two_pow_self (n := w.bits)
    omega
  rw [wrap_of_lt shift, modExp_eq (show 2 ≤ (polyOf q L psi format s).params.modulus from two)
    (show q ≤ 2 ^ w.bits by omega) (by omega)]
  exact run i

variable (c arbitrarySwitchFormat) in
theorem setFormat_ok (digital : Digital w q L psi rho (format = .evaluation) cache) (rep : Represents rho format f x) :
    ∃ y cache', (polyOf q L psi format x).setFormat w c arbitrarySwitchFormat .coefficient cache =
      (.ok (polyOf q L psi .coefficient y), cache') ∧ Represents rho .coefficient f y ∧
      (InForce w q L psi rho cache → InForce w q L psi rho cache') := by
  cases format with
  | coefficient =>
    exact ⟨x, cache, by rw [PolyImpl.setFormat, if_neg (by simp [polyOf])], rep, fun inForce => inForce⟩
  | evaluation =>
    have : NeZero q := ⟨(digital.ring rfl).prime.ne_zero⟩
    obtain ⟨cache', switched, inForce⟩ :=
      setFormat_back c arbitrarySwitchFormat (digital.ring rfl) (digital.inForce rfl) rep
    refine ⟨toValues f, cache', switched, ?_, fun _ => inForce⟩
    have represents : Represents rho .coefficient _ _ := ofValues_represents (toValues_length f) (toValues_lt f)
    rwa [ofValues_toValues] at represents

theorem ofValues_of_represents (rep : Represents rho .coefficient f x) : NativePoly.ofValues x = f :=
  NegPoly.ext (funext rep.shows.residues)

/-- A polynomial recomposes from its digits when the windows fit the word. -/
theorem windows_recompose_iff {formatX formatS : Format} {evalModeAnswer : Bool} {s : List ℕ}
    (digital : Digital w q L psi rho (formatX = .evaluation ∨ formatS = .evaluation ∨ evalModeAnswer = true) cache)
    (repX : Represents rho formatX f x) (repS : Represents rho formatS g s) (hb : 1 ≤ b ∧ b ≤ 30) :
    Recomposes w c arbitrarySwitchFormat q L psi rho b f g (polyOf q L psi formatX x) (polyOf q L psi formatS s)
      evalModeAnswer cache ↔ PolyImpl.nWindows q b * b ≤ w.bits := by
  obtain ⟨two, room, root, ring, inForce⟩ := digital
  have digitalX : Digital w q L psi rho (formatX = .evaluation) cache :=
    ⟨two, room, root, fun h => ring (.inl h), fun h => inForce (.inl h)⟩
  have digitalS : Digital w q L psi rho (formatS = .evaluation) cache :=
    ⟨two, room, root, fun h => ring (.inr (.inl h)), fun h => inForce (.inr (.inl h))⟩
  obtain ⟨y, cache₁, coefficients, repY, kept⟩ :=
    setFormat_ok c arbitrarySwitchFormat digitalX repX
  have unfolded : (polyOf q L psi formatX x).baseDecompose w c arbitrarySwitchFormat b evalModeAnswer cache =
      (polyOf q L psi formatX x).xDigits w c arbitrarySwitchFormat (polyOf q L psi .coefficient y) b evalModeAnswer
        (List.range (PolyImpl.nWindows q b)) cache₁ := by
    rw [PolyImpl.baseDecompose, if_neg (by omega), coefficients]
    rfl
  obtain ⟨last, windows, start⟩ := last_window hb.1 (show 0 < q by omega)
  have bits := size_le_bits room
  constructor
  · rintro ⟨d, digits, U, P, power, recomposition⟩
    by_contra beyond
    rw [windows] at beyond
    have run := recomposition.decomposed
    rw [unfolded] at run
    exact xDigits_fail _ repY.shows.length (by omega) (not_le.mp beyond) _ cache₁
      (List.mem_range.mpr (by rw [windows]; exact Nat.lt_succ_self last)) _ run
  · intro fits
    have digital₁ : Digital w q L psi rho (evalModeAnswer = true) cache₁ :=
      ⟨two, room, root, fun h => ring (.inr (.inr h)), fun h => kept (inForce (.inr (.inr h)))⟩
    obtain ⟨U, represents, loop⟩ := xDigits_ok c arbitrarySwitchFormat (b := b) digital₁
      (polyOf q L psi formatX x) rfl repY.shows.length repY.lt
    obtain ⟨P, powers, multiplied⟩ := powersOfBase_ok digitalS repS hb.1
    have inside : ∀ i < PolyImpl.nWindows q b, (i + 1) * b ≤ w.bits := fun i hi =>
      (Nat.mul_le_mul_right b hi).trans fits
    obtain ⟨cache₂, run⟩ := loop (List.range (PolyImpl.nWindows q b)) cache₁
      (fun i hi => inside i (List.mem_range.mp hi)) digital₁.inForce
    have small : ∀ v ∈ y, v < 2 ^ (PolyImpl.nWindows q b * b) := fun v hv =>
      (repY.lt v hv).trans (Nat.size_le.mp (size_le_windows hb.1))
    have sum := sum_digitsAt (L := L) (q := q) y small
    rw [ofValues_of_represents repY] at sum
    refine ⟨PolyImpl.nWindows q b, fun i => digitsAt b i y, U, P, fun i => const (2 ^ (i * b) : ZMod q) * g, ?_⟩
    refine ⟨by rw [unfolded, run], multiplied, fun i _ => ⟨?_, ?_⟩, fun i hi => represents i (inside i hi),
      fun i _ => powers i, sum.symm, ?_⟩
    · rw [digitsAt, List.length_map, repY.shows.length]
    · exact fun d hd => (digitsAt_lt y repY.lt d hd).2
    · rw [← sum, Finset.sum_mul]
      exact Finset.sum_congr rfl fun i _ => by ring

/-- The transforms of seventeen are at work here. -/
theorem seventeen_recomposes : Recomposes .w64 .gnu .ok 17 1 4 4 3 (NativePoly.ofValues [1, 16]) (NativePoly.ofValues [3, 4])
    (polyOf 17 1 4 .coefficient [1, 16]) (polyOf 17 1 4 .coefficient [3, 4]) true {} :=
  (windows_recompose_iff ⟨by decide, ring_seventeen.room, by decide, fun _ => ring_seventeen, fun _ => .start ring_seventeen⟩
    (ofValues_represents rfl (by decide)) (ofValues_represents rfl (by decide)) (by decide)).mpr (by decide)

/-- Windows of 17 bits over 52 bits reach up to bit 68. -/
theorem fourth_window_beyond_word :
    ¬ Recomposes .w64 .gnu .ok (2 ^ 51) 0 1 1 17 (NativePoly.ofValues [0]) (NativePoly.ofValues [0])
      (polyOf (2 ^ 51) 0 1 .coefficient [0]) (polyOf (2 ^ 51) 0 1 .coefficient [0]) false {} := by
  rintro ⟨d, digits, U, P, power, recomposition⟩
  have run : ((polyOf (2 ^ 51) 0 1 .coefficient [0]).baseDecompose .w64 .gnu .ok 17 false {}).1 = .error .undefinedShift := by
    decide +kernel
  have ok := recomposition.decomposed
  rw [run] at ok
  cases ok

end MultiKeyFHE
