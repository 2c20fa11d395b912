import MultiKeyFHE.BigInt.Inverse
import MultiKeyFHE.BigInt.Powers
import MultiKeyFHE.BigInt.Quotients
import MultiKeyFHE.BigInt.Strings
import MultiKeyFHE.Native.FastProducts

/-!
# Integer types

`nbtheory-impl.h` is written over a class `IntType` of integers. `IntType` holds the operations it uses, by their names in
`integer.h`; `native` and `dynamic` are the classes `NativeIntegerT` and `ubint`. What the number theory relies on is
`Lawful`: each operation returns what stands for the number meant, as long as that number fits.
-/

namespace MultiKeyFHE

structure IntType (α : Type) where
  /-- The constructor from an unsigned number. -/
  ofUint64 : ℕ → α
  compare : α → α → Except Fault ℤ
  add : α → α → α
  sub : α → α → Except Fault α
  mod : α → α → Except Fault α
  dividedBy : α → α → Except Fault α
  /-- The shifts take a `usshort`. -/
  lShift : α → ℕ → Except Fault α
  rShiftEq : α → ℕ → Except Fault α
  modAdd : α → α → α → Except Fault α
  modMulFast : α → α → α → Except Fault α
  modExp : α → α → α → Except Fault α
  computeMu : α → Except Fault α
  modAddMu : α → α → α → α → Except Fault α
  modMulMu : α → α → α → α → Except Fault α
  modMulEqMu : α → α → α → α → Except Fault α
  toString : α → Except Fault String
  /-- `RNG` repeats until its value is below the modulus. What it then returns is the residue of a draw. -/
  rng : ℕ → α → α
  /-- The check of `FirstPrime` that is compiled for native integers only. -/
  requestedBits : ℕ → Except Fault Unit

namespace IntType

def usshort (x : ℕ) : ℕ := x % 2 ^ 16

section Relations
variable {α : Type} (I : IntType α) (a b : α)

/-- The relational operators use `Compare`. -/
def lt : Except Fault Bool := return (← I.compare a b) < 0

def gt : Except Fault Bool := return (← I.compare a b) > 0

def eq : Except Fault Bool := return (← I.compare a b) = 0

def ne : Except Fault Bool := return (← I.compare a b) ≠ 0

end Relations
end IntType

namespace NativeInteger
variable (w : NativeSize)

def lShift (a shift : ℕ) : Except Fault ℕ :=
  if w.bits ≤ shift then .error .undefinedShift else .ok (wrap w (a * 2 ^ shift))

def rShift (a shift : ℕ) : Except Fault ℕ := if w.bits ≤ shift then .error .undefinedShift else .ok (a / 2 ^ shift)

def dividedBy (a b : ℕ) : Except Fault ℕ :=
  if b = 0 then .error (.mathError "NativeIntegerT DividedBy: zero") else .ok (a / b)

/-- The division of the machine. -/
def orDivisionByZero (modulus x : ℕ) : Except Fault ℕ := if modulus = 0 then .error .divisionByZero else .ok x

/-- The shift of `ModMu` and `ModMul` by the length of the modulus less two. -/
def orNegativeShift (modulus x : ℕ) : Except Fault ℕ := if modulus.size < 2 then .error .undefinedShift else .ok x

end NativeInteger

namespace Ubint
variable (l : LimbT)

/-- The constructor from an unsigned number of 64 bits. -/
def ofUint64 (val : ℕ) : Ubint :=
  ⟨val.size,
    if val >>> l.limbBitLength > 0 then (List.range (MSBToLimbs l val.size)).map fun i => limb l (val >>> (l.limbBitLength * i))
    else [limb l val]⟩

def computeMu (a : Ubint) : Except Fault Ubint :=
  dividedBy l (lShift l (ofWord 1) (IntType.usshort (usint (2 * a.MSB + 3)))) a

/-- `ModAdd(b, modulus, mu)`. -/
def modAddMu (a b modulus _mu : Ubint) : Except Fault Ubint := modAdd l b a modulus

/-- `ModMul(b, modulus, mu)`. -/
def modMulMu (a b modulus _mu : Ubint) : Except Fault Ubint := do
  let bv ← reduce l b modulus
  let av ← reduce l a modulus
  mod l (mul l av bv) modulus

def modMulEqMu (a b modulus _mu : Ubint) : Except Fault Ubint := do
  let bv ← reduce l b modulus
  let av ← reduce l a modulus
  mod l (mul l bv av) modulus

end Ubint

namespace IntType
open NativeInteger

def native (w : NativeSize) : IntType ℕ where
  ofUint64 x := wrap w x
  compare a b := .ok (if a < b then -1 else if a > b then 1 else 0)
  add := NativeInteger.add w
  sub a b := .ok (NativeInteger.sub w a b)
  mod a modulus := orDivisionByZero modulus (a % modulus)
  dividedBy := NativeInteger.dividedBy
  lShift a shift := NativeInteger.lShift w a (usshort shift)
  rShiftEq a shift := NativeInteger.rShift w a (usshort shift)
  modAdd a b modulus := orDivisionByZero modulus (NativeInteger.modAdd w a b modulus)
  modMulFast a b modulus := orDivisionByZero modulus (NativeInteger.modMulFast a b modulus)
  modExp a b modulus := if b = 0 then .ok 1 else orDivisionByZero modulus (NativeInteger.modExp w a b modulus)
  computeMu := computeMuChecked w
  modAddMu a b modulus mu :=
    if a < modulus ∧ b < modulus then .ok (modAddFast w a b modulus)
    else orNegativeShift modulus (NativeInteger.modAddMu w a b modulus mu)
  modMulMu a b modulus mu := orNegativeShift modulus (NativeInteger.modMulMu w a b modulus mu)
  modMulEqMu a b modulus mu := orNegativeShift modulus (NativeInteger.modMulMu w a b modulus mu)
  toString a := .ok (ToString.toString a)
  rng draw modulus := draw % modulus
  requestedBits nBits :=
    if nBits > w.maxModulusSize then
      .error (.mathError ("Requested bit length " ++ ToString.toString nBits ++ " exceeds maximum allowed length " ++
        ToString.toString w.maxModulusSize))
    else .ok ()

def dynamic (l : LimbT) : IntType Ubint where
  ofUint64 := Ubint.ofUint64 l
  compare := Ubint.compare
  add := Ubint.add l
  sub := Ubint.sub l
  mod := Ubint.mod l
  dividedBy := Ubint.dividedBy l
  lShift a shift := .ok (Ubint.lShift l a (usshort shift))
  rShiftEq a shift := Ubint.rShiftEq l a (usshort shift)
  modAdd := Ubint.modAdd l
  modMulFast := Ubint.modMulFast l
  modExp := Ubint.modExp l
  computeMu := Ubint.computeMu l
  modAddMu := Ubint.modAddMu l
  modMulMu := Ubint.modMulMu l
  modMulEqMu := Ubint.modMulEqMu l
  toString a := NativeDecimal.text <$> Ubint.toString l a
  rng draw modulus := Ubint.stored l (draw % Ubint.number l modulus)
  requestedBits _ := .ok ()

/-! ### What is relied on -/

/-- The numbers that fit are stored by `rep`, and computed with as numbers. -/
structure Lawful {α : Type} (I : IntType α) (rep : ℕ → α) (fits : ℕ → Prop) : Prop where
  below : ∀ {x y}, x ≤ y → fits y → fits x
  words : ∀ {x}, x < 2 ^ 32 → fits x
  inj : ∀ {x y}, fits x → fits y → rep x = rep y → x = y
  ofUint64 : ∀ {x}, x < 2 ^ 64 → fits x → I.ofUint64 x = rep x
  compare : ∀ {x y}, fits x → fits y → I.compare (rep x) (rep y) = .ok (Ubint.order x y)
  add : ∀ {x y}, fits (x + y) → I.add (rep x) (rep y) = rep (x + y)
  sub : ∀ {x y}, y ≤ x → fits x → I.sub (rep x) (rep y) = .ok (rep (x - y))
  mod : ∀ {x m}, 0 < m → fits x → fits m → I.mod (rep x) (rep m) = .ok (rep (x % m))
  dividedBy : ∀ {x y}, 0 < y → y ≤ x → fits x → I.dividedBy (rep x) (rep y) = .ok (rep (x / y))
  lShift : ∀ {s}, s < 2 ^ 16 → fits (2 ^ s) → I.lShift (rep 1) s = .ok (rep (2 ^ s))
  halve : ∀ {x}, fits x → I.rShiftEq (rep x) 1 = .ok (rep (x / 2))
  rng : ∀ draw {m}, 0 < m → fits m → I.rng draw (rep m) = rep (draw % m)

/-- Arithmetic modulo `q`. -/
structure Modular {α : Type} (I : IntType α) (rep : ℕ → α) (fits : ℕ → Prop) (q : ℕ) : Prop where
  modulus : fits q
  modAdd : ∀ {x y}, x + y < q → I.modAdd (rep x) (rep y) (rep q) = .ok (rep (x + y))
  modMulFast : ∀ {x y}, x < q → y < q → I.modMulFast (rep x) (rep y) (rep q) = .ok (rep (x * y % q))
  modExp : ∀ {x e}, fits x → fits e → I.modExp (rep x) (rep e) (rep q) = .ok (rep (x ^ e % q))

/-- Products of residues with a precomputed `mu`. -/
def Barrett {α : Type} (I : IntType α) (rep : ℕ → α) (q : ℕ) : Prop :=
  ∃ mu, I.computeMu (rep q) = .ok mu ∧ ∀ x < q, ∀ y < q, I.modMulEqMu (rep x) (rep y) (rep q) mu = .ok (rep (x * y % q))

/-- The operations with `mu` return numbers that fit, whichever. -/
def Stays {α : Type} (I : IntType α) (rep : ℕ → α) (fits : ℕ → Prop) (q : ℕ) : Prop :=
  ∃ mu, I.computeMu (rep q) = .ok mu ∧ ∀ x y, fits x → fits y →
    (∃ z, fits z ∧ I.modMulMu (rep x) (rep y) (rep q) mu = .ok (rep z)) ∧
      ∃ z, fits z ∧ I.modAddMu (rep x) (rep y) (rep q) mu = .ok (rep z)

theorem order_eq_zero {x y : ℕ} : Ubint.order x y = 0 ↔ x = y := by
  unfold Ubint.order
  split
  · simp
    omega
  · split <;> simp <;> omega

section Relations
variable {α : Type} {I : IntType α} {rep : ℕ → α} {fits : ℕ → Prop} (laws : Lawful I rep fits) {x y : ℕ} (hx : fits x) (hy : fits y)
include laws hx hy

theorem Lawful.lt : I.lt (rep x) (rep y) = .ok (decide (x < y)) := by
  unfold IntType.lt
  rw [laws.compare hx hy]
  simp [bind, Except.bind, pure, Except.pure, Ubint.order_neg]

theorem Lawful.gt : I.gt (rep x) (rep y) = .ok (decide (y < x)) := by
  unfold IntType.gt
  rw [laws.compare hx hy]
  simp [bind, Except.bind, pure, Except.pure, Ubint.order_pos]

theorem Lawful.eq : I.eq (rep x) (rep y) = .ok (decide (x = y)) := by
  unfold IntType.eq
  rw [laws.compare hx hy]
  simp [bind, Except.bind, pure, Except.pure, order_eq_zero]

theorem Lawful.ne : I.ne (rep x) (rep y) = .ok (decide (x ≠ y)) := by
  unfold IntType.ne
  rw [laws.compare hx hy]
  simp [bind, Except.bind, pure, Except.pure, order_eq_zero]

end Relations

section Words
variable {α : Type} {I : IntType α} {rep : ℕ → α} {fits : ℕ → Prop} (laws : Lawful I rep fits)
include laws

theorem Lawful.ofWord {x : ℕ} (small : x < 2 ^ 32) : I.ofUint64 x = rep x :=
  laws.ofUint64 (small.trans (by norm_num)) (laws.words small)

theorem Lawful.zero : fits 0 := laws.words (by norm_num)

theorem Lawful.one : fits 1 := laws.words (by norm_num)

theorem Lawful.two : fits 2 := laws.words (by norm_num)

theorem Lawful.ofZero : I.ofUint64 0 = rep 0 := laws.ofWord (by norm_num)

theorem Lawful.ofOne : I.ofUint64 1 = rep 1 := laws.ofWord (by norm_num)

theorem Lawful.ofTwo : I.ofUint64 2 = rep 2 := laws.ofWord (by norm_num)

end Words

/-! ### Native integers -/

theorem native_lawful (w : NativeSize) : (native w).Lawful id (· < 2 ^ w.bits) where
  below le word := le.trans_lt word
  words small := small.trans_le w.two_pow_32_le
  inj _ _ same := same
  ofUint64 _ word := wrap_of_lt word
  compare _ _ := rfl
  add word := wrap_of_lt word
  sub le word := congrArg _ (sub_of_le le word)
  mod pos _ _ := if_neg pos.ne'
  dividedBy pos _ _ := if_neg pos.ne'
  lShift {s} _ word := by
    have short : s < w.bits := (Nat.pow_lt_pow_iff_right one_lt_two).mp word
    have small : usshort s = s := Nat.mod_eq_of_lt (short.trans (by cases w <;> decide))
    simp only [native, small, NativeInteger.lShift, if_neg (not_le.mpr short), id, one_mul, wrap_of_lt word]
  halve _ := by
    have wide : ¬ w.bits ≤ 1 := by cases w <;> decide
    simp only [native, NativeInteger.rShift, show usshort 1 = 1 from rfl, if_neg wide, pow_one, id]
  rng _ _ _ _ := rfl

theorem native_modular {w : NativeSize} {q : ℕ} (h2 : 2 ≤ q) (word : q < 2 ^ w.bits) :
    (native w).Modular id (· < 2 ^ w.bits) q where
  modulus := word
  modAdd {x y} less := by
    simp only [native, id, orDivisionByZero, if_neg (show q ≠ 0 by omega), NativeInteger.modAdd,
      Nat.mod_eq_of_lt (show x < q by omega), Nat.mod_eq_of_lt (show y < q by omega), modAddFast, NativeInteger.add,
      wrap_of_lt (less.trans word), if_neg (show ¬ x + y ≥ q by omega)]
  modMulFast _ _ := if_neg (show q ≠ 0 by omega)
  modExp {x e} wordX _ := by
    simp only [native, id, orDivisionByZero, if_neg (show q ≠ 0 by omega), modExp_eq h2 word.le wordX]
    split
    · rename_i zero
      rw [zero, pow_zero, Nat.mod_eq_of_lt h2]
    · rfl

theorem two_le_size {q : ℕ} (h2 : 2 ≤ q) : ¬ q.size < 2 := not_lt.mpr (size_bounds h2).1

theorem native_barrett {w : NativeSize} {q : ℕ} (h2 : 2 ≤ q) (short : ¬ modulusTooLarge w q)
    (other : q ≠ 2 ^ (w.maxModulusSize - 1)) : (native w).Barrett id q := by
  refine ⟨NativeInteger.computeMu w q, if_neg (show q ≠ 0 by omega), fun x hx y hy => ?_⟩
  simp only [native, id, orNegativeShift, if_neg (two_le_size h2), modMulMu_eq h2 short other hx hy]

theorem corrected_word {w : NativeSize} (x q : ℕ) :
    (if wrap w x ≥ q then wrap w x - q else wrap w x) < 2 ^ w.bits := by
  have word : wrap w x < 2 ^ w.bits := Nat.mod_lt _ (by positivity)
  split <;> omega

theorem native_stays {w : NativeSize} {q : ℕ} (h2 : 2 ≤ q) : (native w).Stays id (· < 2 ^ w.bits) q := by
  refine ⟨NativeInteger.computeMu w q, if_neg (show q ≠ 0 by omega), fun x y _ _ => ?_⟩
  simp only [native, id, orNegativeShift, if_neg (two_le_size h2)]
  constructor
  · exact ⟨_, corrected_word _ q, rfl⟩
  · split
    · exact ⟨_, corrected_word _ q, rfl⟩
    · exact ⟨_, corrected_word _ q, rfl⟩

/-! ### Dynamic integers -/

open Ubint in
theorem ofUint64_stored {l : LimbT} {x : ℕ} (word : x < 2 ^ 64) : Ubint.ofUint64 l x = stored l x := by
  have small : x.size ≤ 64 := Nat.size_le.mpr word
  unfold Ubint.ofUint64
  split
  · rename_i many
    rw [Nat.shiftRight_eq_div_pow] at many
    have large : 2 ^ l.limbBitLength ≤ x := (Nat.div_pos_iff.mp many).2
    have long : l.limbBitLength < x.size := Nat.lt_size.mpr large
    have bits := bits_pos l
    have top : (x.size - 1) / l.limbBitLength * l.limbBitLength ≤ x.size - 1 := Nat.div_mul_le_self _ _
    have limbs : ((List.range (MSBToLimbs l x.size)).map fun i => limb l (x >>> (l.limbBitLength * i))) =
        (List.range ((x.size - 1) / l.limbBitLength + 1)).map fun i => x / (2 ^ l.limbBitLength) ^ i % 2 ^ l.limbBitLength := by
      rw [MSBToLimbs_eq (by omega)]
      apply List.map_congr_left
      intro i _
      rw [limb, Nat.shiftRight_eq_div_pow, pow_mul]
    have value : Nat.ofDigits (2 ^ l.limbBitLength)
        ((List.range ((x.size - 1) / l.limbBitLength + 1)).map fun i => x / (2 ^ l.limbBitLength) ^ i % 2 ^ l.limbBitLength) = x := by
      rw [ofDigits_limbs, ← pow_mul]
      apply Nat.mod_eq_of_lt
      apply Nat.size_le.mp
      rw [mul_add, mul_one, mul_comm]
      have := Nat.lt_div_mul_add (a := x.size - 1) (b := l.limbBitLength) (by omega)
      omega
    have canonical : Radix.Canonical (2 ^ l.limbBitLength)
        ((List.range ((x.size - 1) / l.limbBitLength + 1)).map fun i => x / (2 ^ l.limbBitLength) ^ i % 2 ^ l.limbBitLength) := by
      apply Radix.canonical_of_le (one_lt_radix l)
      · simp
      · intro d hd
        obtain ⟨i, -, rfl⟩ := List.mem_map.mp hd
        exact Nat.mod_lt _ (by positivity)
      · rw [value, List.length_map, List.length_range, Nat.add_sub_cancel, ← pow_mul]
        apply Nat.lt_size.mp
        rw [mul_comm]
        omega
    have same := canonical.eq_digits (one_lt_radix l)
    rw [value] at same
    rw [limbs, same, stored, usint, Nat.mod_eq_of_lt (by omega)]
  · rename_i one
    have below : x < 2 ^ l.limbBitLength := by
      rw [Nat.shiftRight_eq_div_pow] at one
      by_contra large
      exact one (Nat.div_pos (not_lt.mp large) (by positivity))
    rw [limb_of_lt below]
    exact stored_ofWord below

open Ubint in
theorem dynamic_lawful (l : LimbT) : (dynamic l).Lawful (stored l) (·.size < 2 ^ 32) where
  below le fits := fits_of_le le fits
  words small := (Nat.size_le.mpr small).trans_lt (by norm_num)
  inj {x y} _ _ same := by
    have numbers := congrArg (number l) same
    rwa [number_stored, number_stored] at numbers
  ofUint64 word _ := ofUint64_stored word
  compare hx hy := compare_stored hx hy
  add fits := add_stored (fits_of_le (Nat.le_add_right ..) fits) (fits_of_le (Nat.le_add_left ..) fits)
  sub le fits := sub_stored fits (fits_of_le le fits)
  mod pos hx hm := mod_stored hm pos.ne' hx
  dividedBy pos le fits := dividedBy_stored fits (fits_of_le le fits) pos.ne' fun less => absurd less (not_lt.mpr le)
  lShift {s} small _ := by
    have same : usshort s = s := Nat.mod_eq_of_lt small
    simp only [dynamic, same]
    rw [lShift_stored (by decide), Nat.one_shiftLeft]
  halve {x} fits := by
    simp only [dynamic, show usshort 1 = 1 from rfl]
    rw [rShiftEq_stored fits, Nat.shiftRight_eq_div_pow, pow_one]
  rng draw _ _ _ := by simp only [dynamic, number_stored]

section Square
open Ubint
variable {l : LimbT} {q : ℕ} (h2 : 2 ≤ q) (square : (q * q).size < 2 ^ 32)
include h2 square

theorem modulus_fits : q.size < 2 ^ 32 := fits_of_le (Nat.le_mul_of_pos_left q (by omega)) square

theorem dynamic_modular : (dynamic l).Modular (stored l) (·.size < 2 ^ 32) q where
  modulus := modulus_fits h2 square
  modAdd {x y} less := by
    have fits := modulus_fits h2 square
    have rest := modAdd_stored (l := l) fits (show q ≠ 0 by omega) (fits_of_le (show x ≤ q by omega) fits)
      (fits_of_le (show y ≤ q by omega) fits)
    rw [Nat.mod_eq_of_lt (show x < q by omega), Nat.mod_eq_of_lt (show y < q by omega), Nat.mod_eq_of_lt less] at rest
    exact rest (fits_of_le less.le fits)
  modMulFast {x y} hx hy := by
    have fits := modulus_fits h2 square
    exact modMulFast_stored fits (fits_of_le hx.le fits) (fits_of_le hy.le fits) hx hy
      (fits_of_le (Nat.mul_le_mul hx.le hy.le) square)
  modExp {x e} hx he := by
    have pos : 0 < q := by omega
    exact modExp_stored (modulus_fits h2 square) pos he (powersFit_of_square pos square) (by omega) hx

theorem computeMu_ok : ∃ mu, Ubint.computeMu l (stored l q) = .ok mu := by
  have short : ∀ s, (1 <<< usshort s).size < 2 ^ 32 := by
    intro s
    have : usshort s < 2 ^ 16 := Nat.mod_lt _ (by norm_num)
    rw [Nat.size_shiftLeft (by decide)]
    simp
    omega
  unfold Ubint.computeMu
  rw [stored_ofWord (one_lt_radix l), lShift_stored (by decide)]
  generalize usint (2 * (stored l q).MSB + 3) = s
  by_cases shared : SharesTop (stored l (1 <<< usshort s)) (stored l q)
  · exact ⟨_, dividedBy_shared (short s) (modulus_fits h2 square) (by omega) shared⟩
  · exact ⟨_, dividedBy_stored (short s) (modulus_fits h2 square) (by omega) fun _ => shared⟩

/-- The order of the factors aside, the products with `mu` reduce the plain product of the residues. -/
theorem reduced_product {x y : ℕ} (hx : x.size < 2 ^ 32) (hy : y.size < 2 ^ 32) (mu : Ubint) :
    Ubint.modMulMu l (stored l x) (stored l y) (stored l q) mu = .ok (stored l (x * y % q)) ∧
      Ubint.modMulEqMu l (stored l x) (stored l y) (stored l q) mu = .ok (stored l (x * y % q)) := by
  have fits := modulus_fits h2 square
  have positive : q ≠ 0 := by omega
  have product : ∀ u v, (u % q * (v % q)).size < 2 ^ 32 := fun u v =>
    fits_of_le (Nat.mul_le_mul (Nat.mod_lt u (by omega)).le (Nat.mod_lt v (by omega)).le) square
  unfold Ubint.modMulMu Ubint.modMulEqMu
  rw [reduce_stored fits positive hx, reduce_stored fits positive hy]
  dsimp only [bind, Except.bind]
  rw [mul_stored (mod_size fits positive x) (mod_size fits positive y) (product x y),
    mul_stored (mod_size fits positive y) (mod_size fits positive x) (product y x),
    mod_stored fits positive (product x y), mod_stored fits positive (product y x), ← Nat.mul_mod, ← Nat.mul_mod,
    Nat.mul_comm y x]
  exact ⟨rfl, rfl⟩

theorem dynamic_barrett : (dynamic l).Barrett (stored l) q := by
  have fits := modulus_fits h2 square
  obtain ⟨mu, computed⟩ := computeMu_ok (l := l) h2 square
  exact ⟨mu, computed, fun x hx y hy => (reduced_product h2 square (fits_of_le hx.le fits) (fits_of_le hy.le fits) mu).2⟩

theorem dynamic_stays : (dynamic l).Stays (stored l) (·.size < 2 ^ 32) q := by
  have fits := modulus_fits h2 square
  have positive : q ≠ 0 := by omega
  obtain ⟨mu, computed⟩ := computeMu_ok (l := l) h2 square
  refine ⟨mu, computed, fun x y hx hy => ⟨⟨_, mod_size fits positive _, (reduced_product h2 square hx hy mu).1⟩, ?_⟩⟩
  have sum : (y % q + x % q).size < 2 ^ 32 := by
    refine fits_of_le ?_ square
    have hx := Nat.mod_lt x (show 0 < q by omega)
    have hy := Nat.mod_lt y (show 0 < q by omega)
    nlinarith
  exact ⟨_, mod_size fits positive _, modAdd_stored fits positive hy hx sum⟩

end Square
end IntType
end MultiKeyFHE
