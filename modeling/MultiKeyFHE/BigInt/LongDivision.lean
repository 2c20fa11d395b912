import MultiKeyFHE.BigInt.Quotients

/-!
# Long division, digit by digit

The pass of Algorithm D next to one whose double limbs have no bounds. The two agree in every state that the loop reaches,
and leave the digit that the quotient has at that place.
-/

namespace MultiKeyFHE.Ubint
open InPlace Radix

/-! ### The pass without bounds -/

section Exact
variable (l : LimbT)

/-- `correct` on integers. -/
def correctExact (v1 v0 u0 : ℤ) (positive : 0 < v1) (qhat rhat : ℤ) : ℤ :=
  if 2 ^ l.limbBitLength ≤ qhat ∨ rhat * 2 ^ l.limbBitLength + u0 < qhat * v0 then
    if wide : 2 ^ l.limbBitLength ≤ rhat + v1 then qhat - 1
    else correctExact v1 v0 u0 positive (qhat - 1) (rhat + v1)
  else qhat
  termination_by (2 ^ l.limbBitLength - rhat).toNat
  decreasing_by omega

/-- `mulSub` on integers. Only the limbs that it stores are words. -/
def mulSubExact (qhat : ℤ) : List ℕ → ℤ → List ℕ → Except Fault (List ℕ × ℤ)
  | _, _, [] => .error .outOfRange
  | [], k, u :: us => .ok (((u - k) % 2 ^ l.limbBitLength).toNat :: us, u - k)
  | v :: vs, k, u :: us => do
    let p := qhat * v
    let t := u - k - p % 2 ^ l.limbBitLength
    let k := p / 2 ^ l.limbBitLength - t / 2 ^ l.limbBitLength
    let (rest, last) ← mulSubExact qhat vs k us
    return ((t % 2 ^ l.limbBitLength).toNat :: rest, last)

/-- `quotientDigit` on integers: the digit, and what is left of the dividend. -/
def digitExact (vn un : List ℕ) (j : ℕ) : Except Fault (ℤ × List ℕ) := do
  let n := vn.length
  let v1 ← load .outOfRange vn (n - 1)
  let v0 ← load .outOfRange vn (n - 2)
  let u2 ← load .outOfRange un (j + n)
  let u1 ← load .outOfRange un (j + n - 1)
  let u0 ← load .outOfRange un (j + n - 2)
  let ofl : ℤ := u2 * 2 ^ l.limbBitLength + u1
  if zero : v1 = 0 then throw .divisionByZero
  else
    let qhat := correctExact l v1 v0 u0 (by omega) (ofl / v1) (ofl % v1)
    let (window, t) ← mulSubExact l qhat vn 0 (un.drop j)
    if t < 0 then
      let window ← addBack l vn 0 window
      return (qhat - 1, un.take j ++ window)
    else return (qhat, un.take j ++ window)

end Exact

variable {l : LimbT} {m n : ℕ}

theorem correct_exact {v1 v0 u0 : ℕ} (positive : 0 < v1) (hv : v0 < 2 ^ l.limbBitLength) (hu : u0 < 2 ^ l.limbBitLength)
    (qhat rhat : ℕ) (small : rhat < 2 ^ l.limbBitLength) :
    (correct l v1 v0 u0 positive qhat rhat : ℤ) = correctExact l v1 v0 u0 (Int.natCast_pos.mpr positive) qhat rhat := by
  have above : ∀ x : ℕ, x >>> l.limbBitLength ≠ 0 ↔ (2 : ℤ) ^ l.limbBitLength ≤ x := by
    intro x
    rw [Nat.shiftRight_eq_div_pow, ← Nat.pos_iff_ne_zero, Nat.div_pos_iff]
    exact ⟨fun h => by exact_mod_cast h.2, fun h => ⟨by positivity, by exact_mod_cast h⟩⟩
  have test : (qhat >>> l.limbBitLength ≠ 0 ∨ dlimb l (qhat * v0) > dlimb l (rhat <<< l.limbBitLength) ||| u0) ↔
      ((2 : ℤ) ^ l.limbBitLength ≤ qhat ∨ (rhat : ℤ) * 2 ^ l.limbBitLength + u0 < qhat * v0) := by
    rw [join_limbs small hu, above]
    by_cases large : (2 : ℤ) ^ l.limbBitLength ≤ qhat
    · exact iff_of_true (.inl large) (.inl large)
    · -- The product is looked at only where the estimate is a limb.
      have limb : qhat < 2 ^ l.limbBitLength := by exact_mod_cast not_le.mp large
      rw [dlimb_of_lt (Nat.mul_lt_mul'' limb hv)]
      simp only [large, false_or, gt_iff_lt]
      exact_mod_cast Iff.rfl
  rw [correct, correctExact]
  by_cases more : (2 : ℤ) ^ l.limbBitLength ≤ qhat ∨ (rhat : ℤ) * 2 ^ l.limbBitLength + u0 < qhat * v0
  · rw [if_pos (test.mpr more), if_pos more]
    have some : 0 < qhat := by
      rcases Nat.eq_zero_or_pos qhat with rfl | some
      · rcases more with large | product
        · have : (0 : ℤ) < 2 ^ l.limbBitLength := by positivity
          omega
        · have : (0 : ℤ) ≤ (rhat : ℤ) * 2 ^ l.limbBitLength + u0 := by positivity
          omega
      · exact some
    have less : ((qhat - 1 : ℕ) : ℤ) = qhat - 1 := by omega
    have sum : ((rhat + v1 : ℕ) : ℤ) = rhat + v1 := by push_cast; rfl
    have carry := above (rhat + v1)
    rw [sum] at carry
    by_cases wide : (2 : ℤ) ^ l.limbBitLength ≤ rhat + v1
    · rw [dif_pos (carry.mpr wide), dif_pos wide, less]
    · have below : rhat + v1 < 2 ^ l.limbBitLength := by exact_mod_cast not_le.mp wide
      rw [dif_neg (fun h => wide (carry.mp h)), dif_neg wide, correct_exact positive hv hu (qhat - 1) (rhat + v1) below,
        less, sum]
  · rw [if_neg (fun h => more (test.mp h)), if_neg more]
  termination_by 2 ^ l.limbBitLength - rhat

theorem mulSub_exact {qhat : ℕ} (hq : qhat < 2 ^ l.limbBitLength) (vs : List ℕ) (k : ℤ) (us : List ℕ)
    (hv : ∀ x ∈ vs, x < 2 ^ l.limbBitLength) (hu : ∀ x ∈ us, x < 2 ^ l.limbBitLength) (hk : 0 ≤ k ∧ k ≤ 2 ^ l.limbBitLength) :
    mulSub l qhat vs k us = mulSubExact l qhat vs k us := by
  induction vs generalizing k us with
  | nil =>
    cases us with
    | nil => rfl
    | cons u us =>
      have below : (u : ℤ) < 2 ^ l.limbBitLength := by exact_mod_cast hu u (by simp)
      simp only [mulSub, mulSubExact, sdlimb_of_small (l := l) (x := u - k) (by omega) (by omega)]
  | cons v vs ih =>
    cases us with
    | nil => rfl
    | cons u us =>
      have product : qhat * v < 2 ^ l.limbBitLength * 2 ^ l.limbBitLength := Nat.mul_lt_mul'' hq (hv v (by simp))
      obtain ⟨t, ht⟩ : ∃ t : ℤ, t = u - k - limb l (qhat * v) := ⟨_, rfl⟩
      obtain ⟨exact, borrow⟩ := borrow_bounds hq (hv v (by simp)) (hu u (by simp)) hk ht
      have low : ((qhat : ℤ) * v) % 2 ^ l.limbBitLength = limb l (qhat * v) := by simp [limb]
      have high : ((qhat : ℤ) * v) / 2 ^ l.limbBitLength = ((qhat * v) >>> l.limbBitLength : ℕ) := by
        simp [Nat.shiftRight_eq_div_pow]
      have exact' : sdlimb l (((qhat * v) >>> l.limbBitLength : ℕ) - t / 2 ^ l.limbBitLength) =
          ((qhat * v) >>> l.limbBitLength : ℕ) - t / 2 ^ l.limbBitLength := sdlimb_of_small (by omega) (by omega)
      simp only [mulSub, mulSubExact, dlimb_of_lt product, low, high, ← ht, exact, exact']
      rw [ih _ us (fun x hx => hv x (List.mem_cons_of_mem _ hx)) (fun x hx => hu x (List.mem_cons_of_mem _ hx)) borrow]

/-! ### Every pass -/

section Digit
variable {vn : List ℕ} {k : ℕ} (length : vn.length = k + 2) (hv : ∀ x ∈ vn, x < 2 ^ l.limbBitLength)
  (inside : k + 1 < vn.length) (top : vn[k + 1] ≠ 0)
include length hv top

theorem digitExact_ok {un : List ℕ} {j : ℕ} (hu : ∀ x ∈ un, x < 2 ^ l.limbBitLength) (long : j + k + 3 ≤ un.length)
    (room : Nat.ofDigits (2 ^ l.limbBitLength) (un.drop j) < 2 ^ l.limbBitLength * Nat.ofDigits (2 ^ l.limbBitLength) vn) :
    digitExact l vn un j =
      (((Nat.ofDigits (2 ^ l.limbBitLength) (un.drop j) / Nat.ofDigits (2 ^ l.limbBitLength) vn : ℕ) : ℤ), ·) <$>
        divideDigit l vn un j := by
  have limbs : ∀ i (h : i < un.length), un[i] < 2 ^ l.limbBitLength := fun i h => hu _ (List.getElem_mem h)
  have dividend := join_limbs (limbs (j + (k + 2)) (by omega)) (limbs (j + (k + 1)) (by omega))
  obtain ⟨qhat, window, t, rest, corrected, digit, run, added, -, -, -, estimate⟩ :=
    estimate_ok length hv inside top hu long room
  have positive := Nat.pos_of_ne_zero top
  have divisor := hv _ (List.getElem_mem inside)
  have exact := correct_exact positive (hv _ (List.getElem_mem (show k < vn.length by omega))) (limbs (j + k) (by omega))
    ((un[j + (k + 2)] * 2 ^ l.limbBitLength + un[j + (k + 1)]) / vn[k + 1])
    ((un[j + (k + 2)] * 2 ^ l.limbBitLength + un[j + (k + 1)]) % vn[k + 1]) ((Nat.mod_lt _ positive).trans divisor)
  rw [corrected] at exact
  push_cast at exact
  have run' := mulSub_exact digit vn 0 (un.drop j) hv (fun x hx => hu x (List.mem_of_mem_drop hx)) ⟨le_rfl, by positivity⟩
  rw [run] at run'
  have second : load Fault.outOfRange un (j + (k + 2) - 1) = .ok un[j + (k + 1)] := load_ok _ (by omega)
  have third : load Fault.outOfRange un (j + (k + 2) - 2) = .ok un[j + k] := load_ok _ (by omega)
  have upper : load Fault.outOfRange vn (k + 2 - 1) = .ok vn[k + 1] := load_ok _ (by omega)
  have lower : load Fault.outOfRange vn (k + 2 - 2) = .ok vn[k] := load_ok _ (by omega)
  unfold digitExact divideDigit
  simp only [length, upper, lower, load_ok Fault.outOfRange (show j + (k + 2) < un.length by omega), second, third]
  dsimp only [bind, Except.bind]
  rw [dif_neg top, dif_neg top]
  simp only [dividend, corrected, run, ← exact, ← run']
  by_cases negative : t < 0
  · rw [if_pos negative] at added estimate
    simp only [if_pos negative, added, estimate]
    push_cast
    rw [add_sub_cancel_right]
    rfl
  · rw [if_neg negative, add_zero] at estimate
    simp only [if_neg negative, estimate]
    rfl

end Digit

/-- The state after `c` passes. The digits of the quotient are the first `c` from the top. -/
theorem passes_ok {k i sl : ℕ} {vn un : List ℕ} (ready : Prepared l m n k i sl vn un) {c : ℕ} (hc : c ≤ i) :
    ∃ q out, ((List.range i).reverse.take c).foldlM (quotientDigit l vn) ([], un) = .ok (q, out) ∧
      ((List.range i).reverse.take c).foldlM (divideDigit l vn) un = .ok out ∧ out.length = un.length ∧
      (∀ x ∈ out, x < 2 ^ l.limbBitLength) ∧
      Nat.ofDigits (2 ^ l.limbBitLength) (out.drop (i - c)) < Nat.ofDigits (2 ^ l.limbBitLength) vn ∧
      Nat.ofDigits (2 ^ l.limbBitLength) un = Nat.ofDigits (2 ^ l.limbBitLength) out +
        Nat.ofDigits (2 ^ l.limbBitLength) vn * ((2 ^ l.limbBitLength) ^ (i - c) * Nat.ofDigits (2 ^ l.limbBitLength) q) := by
  induction c with
  | zero => exact ⟨[], un, rfl, rfl, rfl, ready.ltU, ready.room, by simp⟩
  | succ c ih =>
    obtain ⟨q, mid, keeping, run, length, lt, room, value⟩ := ih (by omega)
    obtain ⟨j, hj⟩ : ∃ j, i - c = j + 1 := ⟨i - c - 1, by omega⟩
    have place : (List.range i).reverse.take (c + 1) = (List.range i).reverse.take c ++ [j] := by
      rw [List.take_succ_eq_append_getElem (by simp; omega)]
      simp only [List.getElem_reverse, List.length_range, List.getElem_range]
      congr 2
      omega
    have total := ready.lengthU
    rw [hj] at room value
    have next := room_next lt (by omega) room
    obtain ⟨out, run', keeping', length', lt', low, rest⟩ :=
      divideDigit_ok ready.lengthV ready.ltV ready.inside ready.top lt (by omega) next q
    refine ⟨Nat.ofDigits (2 ^ l.limbBitLength) (mid.drop j) / Nat.ofDigits (2 ^ l.limbBitLength) vn :: q, out, ?_, ?_,
      length'.trans length, lt', ?_, ?_⟩
    · rw [place, List.foldlM_append, keeping]
      exact Run.foldlM_cons_ok keeping' rfl
    · rw [place, List.foldlM_append, run]
      exact Run.foldlM_cons_ok run' rfl
    · rw [show i - (c + 1) = j by omega, rest]
      exact Nat.mod_lt _ (Nat.zero_lt_of_lt ready.room)
    · rw [value, whole_of_remainder (by omega) length' low rest, show i - (c + 1) = j by omega, Nat.ofDigits_cons]
      ring

/-- The digits of the dividend divided by the divisor, of which `q` are those above place `j`. -/
theorem digit_of_whole {B V N U Q j : ℕ} (hV : 0 < V) (hB : 0 < B) (whole : N = U + V * (B ^ (j + 1) * Q))
    (room : U / B ^ j < B * V) : N / V / B ^ j % B = U / B ^ j / V := by
  have power : 0 < B ^ j := Nat.pow_pos hB
  have split : N = U + V * B ^ j * (B * Q) := by
    rw [whole, pow_succ]
    ring
  rw [Nat.div_div_eq_div_mul, split, Nat.add_mul_div_left _ _ (by positivity), Nat.add_mul_mod_self_left,
    mul_comm V, ← Nat.div_div_eq_div_mul]
  exact Nat.mod_eq_of_lt (Nat.div_lt_of_lt_mul (mul_comm B V ▸ room))

/-! ### The specification -/

/-- The divisor and the dividend as the loop over the digits finds them. -/
def shiftedDivisor (l : LimbT) (v : List ℕ) : List ℕ := (shiftLimbs l (l.limbBitLength - (v.getLastD 0).size) v 0).1

def shiftedDividend (l : LimbT) (u v : List ℕ) : List ℕ :=
  let (lower, ofl) := shiftLimbs l (l.limbBitLength - (v.getLastD 0).size) u 0
  lower ++ [limb l ofl]

/-- The places of the quotient, in the order of the loop. -/
def places (u v : List ℕ) : List ℕ := (List.range (u.length + 1 - v.length)).reverse

/-- The pass at place `j` finds a state in which double limbs without bounds give the same, and every limb is there. The
digit is that of the quotient. -/
structure Pass (l : LimbT) (u v : Ubint) (before : List ℕ) (j : ℕ) : Prop where
  digit : ∃ q un un', before.foldlM (quotientDigit l (shiftedDivisor l v.value)) ([], shiftedDividend l u.value v.value) = .ok (q, un) ∧
    quotientDigit l (shiftedDivisor l v.value) (q, un) j =
      .ok (number l u / number l v / (2 ^ l.limbBitLength) ^ j % 2 ^ l.limbBitLength :: q, un') ∧
    digitExact l (shiftedDivisor l v.value) un j =
      .ok (((number l u / number l v / (2 ^ l.limbBitLength) ^ j % 2 ^ l.limbBitLength : ℕ) : ℤ), un')
  remainder : ∃ un un', before.foldlM (divideDigit l (shiftedDivisor l v.value)) (shiftedDividend l u.value v.value) = .ok un ∧
    divideDigit l (shiftedDivisor l v.value) un j = .ok un' ∧
    digitExact l (shiftedDivisor l v.value) un j =
      .ok (((number l u / number l v / (2 ^ l.limbBitLength) ^ j % 2 ^ l.limbBitLength : ℕ) : ℤ), un')

structure LongDivides (l : LimbT) (u v : Ubint) : Prop where
  results : ∃ q r, divqrVect l u.value v.value = .ok (q, r) ∧ Normalised l q ∧ Normalised l r ∧
    number l u = number l q * number l v + number l r ∧ number l r < number l v ∧
    divqVect l u.value v.value = .ok q ∧ divrVect l u.value v.value = .ok r
  passes : ∀ before j rest, places u.value v.value = before ++ j :: rest → Pass l u v before j

theorem pass_ok {k i sl : ℕ} {vn un : List ℕ} (ready : Prepared l m n k i sl vn un) {c j : ℕ} (hj : i - c = j + 1) :
    ∃ q mid out, ((List.range i).reverse.take c).foldlM (quotientDigit l vn) ([], un) = .ok (q, mid) ∧
      ((List.range i).reverse.take c).foldlM (divideDigit l vn) un = .ok mid ∧
      quotientDigit l vn (q, mid) j = .ok (m / n / (2 ^ l.limbBitLength) ^ j % 2 ^ l.limbBitLength :: q, out) ∧
      divideDigit l vn mid j = .ok out ∧
      digitExact l vn mid j = .ok (((m / n / (2 ^ l.limbBitLength) ^ j % 2 ^ l.limbBitLength : ℕ) : ℤ), out) := by
  obtain ⟨q, mid, keeping, run, length, lt, room, value⟩ := passes_ok ready (show c ≤ i by omega)
  have total := ready.lengthU
  rw [hj] at room value
  have next := room_next lt (by omega) room
  obtain ⟨out, run', keeping', -, -, -, -⟩ :=
    divideDigit_ok ready.lengthV ready.ltV ready.inside ready.top lt (by omega) next q
  have upper : Nat.ofDigits (2 ^ l.limbBitLength) (mid.drop j) =
      Nat.ofDigits (2 ^ l.limbBitLength) mid / (2 ^ l.limbBitLength) ^ j := by
    rw [ofDigits_split _ mid (i := j) (by omega), Nat.add_mul_div_left _ _ (by positivity),
      Nat.div_eq_of_lt (ofDigits_take_lt (one_lt_radix l) lt (by omega)), zero_add]
  have digit := digit_of_whole (Nat.zero_lt_of_lt ready.room) (by positivity) value (upper ▸ next)
  rw [ready.valueU, ready.valueV, Nat.mul_div_mul_left _ _ (by positivity), ← ready.valueV, ← upper] at digit
  refine ⟨q, mid, out, keeping, run, by rw [keeping', digit], run', ?_⟩
  rw [digitExact_ok ready.lengthV ready.ltV ready.inside ready.top lt (by omega) next, run', digit]
  rfl

theorem passes_stored {k : ℕ} (length : (stored l n).value.length = k + 2)
    (more : (stored l n).value.length ≤ (stored l m).value.length) (before : List ℕ) (j : ℕ) (rest : List ℕ)
    (order : places (stored l m).value (stored l n).value = before ++ j :: rest) :
    Pass l (stored l m) (stored l n) before j := by
  obtain ⟨vn, un, i, ready⟩ := prepared length more rfl
  have count := ready.places
  have all : places (stored l m).value (stored l n).value = (List.range i).reverse := by
    rw [places, length, show (stored l m).value.length + 1 - (k + 2) = i by omega]
  rw [all] at order
  have total := congrArg List.length order
  simp only [List.length_reverse, List.length_range, List.length_append, List.length_cons] at total
  have first : before = (List.range i).reverse.take before.length := by
    rw [order, List.take_left]
  have place : i - before.length = j + 1 := by
    have entry : (List.range i).reverse[before.length]? = some j := by rw [order]; simp
    rw [List.getElem?_reverse (by simp; omega), List.length_range, List.getElem?_range (by omega)] at entry
    have := Option.some.inj entry
    omega
  obtain ⟨q, mid, out, keeping, run, digit, left, exact⟩ := pass_ok ready place
  rw [← first] at keeping run
  have divisor : shiftedDivisor l (stored l n).value = vn := ready.divisor
  have dividend : shiftedDividend l (stored l m).value (stored l n).value = un := ready.dividend
  constructor <;> simp only [divisor, dividend, number_stored]
  · exact ⟨q, mid, out, keeping, digit, exact⟩
  · exact ⟨mid, out, run, left, exact⟩

theorem longDivides {u v : Ubint} (hu : Normalised l u) (hv : Normalised l v) (two : 2 ≤ v.value.length)
    (more : v.value.length ≤ u.value.length) : LongDivides l u v := by
  obtain ⟨m, rfl, fitsM⟩ : ∃ m, u = stored l m ∧ m.size < 2 ^ 32 := ⟨_, hu.eq_stored, hu.fits⟩
  obtain ⟨n, rfl, fitsN⟩ : ∃ n, v = stored l n ∧ n.size < 2 ^ 32 := ⟨_, hv.eq_stored, hv.fits⟩
  obtain ⟨k, length⟩ : ∃ k, (stored l n).value.length = k + 2 := ⟨(stored l n).value.length - 2, by omega⟩
  obtain ⟨_, _, _, ready⟩ := prepared length more rfl
  have below := Nat.mod_lt m ready.positive
  refine ⟨⟨stored l (m / n), stored l (m % n), divqrVect_many length more,
    stored_normalised (fits_of_le (Nat.div_le_self m n) fitsM), stored_normalised (fits_of_le below.le fitsN), ?_, ?_,
    divqVect_many length more, divrVect_many length more⟩, passes_stored length more⟩
  · simp only [number_stored]
    rw [mul_comm]
    exact (Nat.div_add_mod m n).symm
  · simpa only [number_stored] using below

/-- The first estimate is one too many, and the divisor is added back. -/
theorem longDivides_adding_back :
    LongDivides .uint32 (normalizeLimbs .uint32 [3, 0, 2 ^ 31]) (normalizeLimbs .uint32 [1, 0, 2 ^ 29]) :=
  longDivides (normalizeLimbs_represents (by decide) (by decide) (by decide)).1
    (normalizeLimbs_represents (by decide) (by decide) (by decide)).1 (by decide) (by decide)

end MultiKeyFHE.Ubint
