import MultiKeyFHE.Native.Integer
import MultiKeyFHE.Library.InPlace

/-!
# Dynamic big integers

`ubint` of `ubintdyn.h`: a vector of limbs, least significant first, next to the position of the most significant bit.
The position is a word of 32 bits, and every operation keeps it by hand. Products and shifts are those of `Dlimb_t`,
which is twice as wide as a limb; sums of a few limbs fit there and are not wrapped.
-/

namespace MultiKeyFHE
open InPlace

inductive LimbT where
  | uint32 | uint64
  deriving DecidableEq, Repr

namespace LimbT

def limbBitLength : LimbT → ℕ
  | uint32 => 32
  | uint64 => 64

def log2LimbBitLength : LimbT → ℕ
  | uint32 => 5
  | uint64 => 6

end LimbT

structure Ubint where
  MSB : ℕ
  value : List ℕ
  deriving DecidableEq, Repr

namespace Ubint
variable (l : LimbT)

def maxLimb : ℕ := 2 ^ l.limbBitLength - 1

/-- The conversions to `limb_t`, `Dlimb_t`, `SDlimb_t` and `usint`. -/
def limb (x : ℕ) : ℕ := x % 2 ^ l.limbBitLength

def dlimb (x : ℕ) : ℕ := x % 2 ^ (2 * l.limbBitLength)

def sdlimb (x : ℤ) : ℤ := x.bmod (2 ^ (2 * l.limbBitLength))

def usint (x : ℕ) : ℕ := x % 2 ^ 32

/-- `ubint()`. -/
def zero : Ubint := ⟨0, [0]⟩

/-- The constructor from a word that fits a limb. -/
def ofWord (val : ℕ) : Ubint := ⟨val.size, [val]⟩

/-- Pops zeros, of which the first entry is the most significant, as long as more than one limb is left. -/
def popZeros : List ℕ → List ℕ
  | top :: next :: rest => if top = 0 then popZeros (next :: rest) else top :: next :: rest
  | limbs => limbs

/-- `NormalizeLimbs`, as the constructor from a vector calls it. -/
def normalizeLimbs (limbs : List ℕ) : Ubint :=
  let value := (popZeros limbs.reverse).reverse
  ⟨usint (l.limbBitLength * usint (value.length - 1) + (value.getLastD 0).size), value⟩

/-! ### Comparison -/

/-- The limbs below `i`, from the top. -/
def compareLimbs (a b : List ℕ) : ℕ → Except Fault ℤ
  | 0 => .ok 0
  | i + 1 => do
    let x ← load .outOfRange a i
    let y ← load .outOfRange b i
    if x < y then return -1
    if x > y then return 1
    compareLimbs a b i

def compare (a b : Ubint) : Except Fault ℤ :=
  if a.MSB < b.MSB then .ok (-1)
  else if a.MSB > b.MSB then .ok 1
  else compareLimbs a.value b.value a.value.length

/-! ### Sums and differences -/

/-- The loop over the longer summand, with what it stores after its last limb. -/
def addLimbs : List ℕ → List ℕ → ℕ → List ℕ
  | [], _, c => [limb l c]
  | av :: as, bs, c => limb l (c + (av + bs.headD 0)) :: addLimbs as bs.tail ((c + (av + bs.headD 0)) >>> l.limbBitLength)

/-- The one with more limbs first. -/
def bySize (a b : Ubint) : Ubint × Ubint := if a.value.length < b.value.length then (b, a) else (a, b)

def add (a b : Ubint) : Ubint :=
  let (A, B) := bySize a b
  if B.MSB = 0 then A else normalizeLimbs l (addLimbs l A.value B.value 0)

def addEq (a b : Ubint) : Ubint :=
  let (A, B) := bySize a b
  if B.MSB = 0 then A else normalizeLimbs l (addLimbs l A.value B.value 0)

/-- Borrows from the first limb that is not zero. -/
def borrow : List ℕ → Except Fault (List ℕ)
  | [] => .error .outOfRange
  | r :: rs => if r = 0 then (maxLimb l :: ·) <$> borrow rs else .ok ((r - 1) :: rs)

def subLimbs : List ℕ → List ℕ → Except Fault (List ℕ)
  | rs, [] => .ok rs
  | [], _ :: _ => .error .outOfRange
  | r :: rs, b :: bs =>
    if r < b then do
      let rs ← borrow l rs
      (limb l (r + ((maxLimb l - b) + 1)) :: ·) <$> subLimbs rs bs
    else ((r - b) :: ·) <$> subLimbs rs bs

def sub (a b : Ubint) : Except Fault Ubint := do
  if (← compare a b) ≤ 0 then return zero
  return normalizeLimbs l (← subLimbs l a.value b.value)

def subEq (a b : Ubint) : Except Fault Ubint := do
  if (← compare a b) ≤ 0 then return ⟨0, (a.value.set 0 0).take 1⟩
  return normalizeLimbs l (← subLimbs l a.value b.value)

/-! ### Products and powers -/

/-- One limb times the limbs of `A`, with the last overflow on top. -/
def mulLimbs (limbb : ℕ) : List ℕ → ℕ → List ℕ
  | [], ofl => [limb l ofl]
  | a :: as, ofl => limb l (dlimb l (ofl + limbb * a)) :: mulLimbs limbb as (dlimb l (ofl + limbb * a) >>> l.limbBitLength)

/-- The loop over the limbs of `B`, from place `i` on. -/
def mulRows (A : List ℕ) : List ℕ → ℕ → Ubint → Ubint
  | [], _, ans => ans
  | b :: bs, i, ans => mulRows A bs (i + 1) (add l ans (normalizeLimbs l (List.replicate i 0 ++ mulLimbs l b A 0)))

def mul (a b : Ubint) : Ubint :=
  if a.MSB = 0 ∨ b.MSB = 0 then zero
  else if b.MSB = 1 then a
  else if a.MSB = 1 then b
  else
    let (A, B) := bySize a b
    mulRows l A.value B.value 0 zero

def exp (a : Ubint) (p : ℕ) : Ubint :=
  if p = 0 then ofWord 1
  else if p = 1 then a
  else
    let tmp := exp a (p >>> 1)
    let tmp := mul l tmp tmp
    if p &&& 0x1 ≠ 0 then mul l tmp a else tmp
  termination_by p
  decreasing_by
    rw [Nat.shiftRight_eq_div_pow]
    omega

/-! ### Shifts -/

/-- The limbs shifted up by less than a limb, onto an overflow, with the overflow that is left. -/
def shiftLimbs (shift : ℕ) : List ℕ → ℕ → List ℕ × ℕ
  | [], ofl => ([], ofl)
  | v :: vs, ofl =>
    let ofl := ofl ||| dlimb l (v <<< shift)
    let (rest, last) := shiftLimbs shift vs (ofl >>> l.limbBitLength)
    (limb l ofl :: rest, last)

/-- `push_back` of an overflow that is not zero. -/
def pushOverflow (shifted : List ℕ × ℕ) : List ℕ :=
  if shifted.2 ≠ 0 then shifted.1 ++ [limb l shifted.2] else shifted.1

/-- What the shifts to the left do with the limbs: first the bits, then the whole limbs from the top down. -/
def lShiftLimbs (value : List ℕ) (shift : ℕ) : List ℕ :=
  let shiftByLimb := shift >>> l.log2LimbBitLength
  let shift := shift &&& (l.limbBitLength - 1)
  let value := if shift ≠ 0 then pushOverflow l (shiftLimbs l shift value 0) else value
  if shiftByLimb ≠ 0 then List.replicate shiftByLimb 0 ++ value else value

def lShift (a : Ubint) (shift : ℕ) : Ubint :=
  if a.MSB = 0 then zero else ⟨usint (a.MSB + shift), lShiftLimbs l a.value shift⟩

def lShiftEq (a : Ubint) (shift : ℕ) : Ubint :=
  if a.MSB = 0 then a else ⟨usint (a.MSB + shift), lShiftLimbs l a.value shift⟩

/-- The shifts to the right read the lowest limb they keep outside the loop. -/
def rShiftLimbs (value : List ℕ) (shift : ℕ) : Except Fault (List ℕ) :=
  let shiftByLimb := shift >>> l.log2LimbBitLength
  let shift := shift &&& (l.limbBitLength - 1)
  match value.drop shiftByLimb with
  | [] => .error .outOfRange
  | v :: vs => .ok (pushOverflow l (shiftLimbs l (l.limbBitLength - shift) vs (v >>> shift)))

def rShift (a : Ubint) (shift : ℕ) : Except Fault Ubint :=
  if a.MSB ≤ shift then .ok (ofWord 0)
  else do
    let value ← rShiftLimbs l a.value shift
    return ⟨a.MSB - shift, value⟩

def rShiftEq (a : Ubint) (shift : ℕ) : Except Fault Ubint :=
  if a.MSB ≤ shift then .ok ⟨0, (a.value.take 1).set 0 0⟩
  else do
    let value ← rShiftLimbs l a.value shift
    return ⟨a.MSB - shift, value⟩

/-! ### Remainders -/

/-- The remainder of the limbs, most significant first, by one limb. -/
def remainderByLimb (v : ℕ) : List ℕ → ℕ → ℕ
  | [], ofl => ofl
  | u :: us, ofl => remainderByLimb v us ((dlimb l (ofl <<< l.limbBitLength) ||| u) % v)

/-- The loop that corrects the estimate of a digit of the quotient. -/
def correct (v1 v0 u0 : ℕ) (positive : 0 < v1) (qhat rhat : ℕ) : ℕ :=
  if qhat >>> l.limbBitLength ≠ 0 ∨ dlimb l (qhat * v0) > dlimb l (rhat <<< l.limbBitLength) ||| u0 then
    if carry : (rhat + v1) >>> l.limbBitLength ≠ 0 then qhat - 1
    else correct v1 v0 u0 positive (qhat - 1) (rhat + v1)
  else qhat
  termination_by 2 ^ l.limbBitLength - rhat
  decreasing_by
    have below : rhat + v1 < 2 ^ l.limbBitLength := by
      rw [Nat.shiftRight_eq_div_pow] at carry
      by_contra large
      exact carry (Nat.div_pos (not_lt.mp large) (by positivity)).ne'
    omega

/-- Subtracts `qhat` times the divisor from the limbs above, and returns the last difference. -/
def mulSub (qhat : ℕ) : List ℕ → ℤ → List ℕ → Except Fault (List ℕ × ℤ)
  | _, _, [] => .error .outOfRange
  | [], k, u :: us =>
    let t := sdlimb l (u - k)
    .ok ((t % 2 ^ l.limbBitLength).toNat :: us, t)
  | v :: vs, k, u :: us => do
    let p := dlimb l (qhat * v)
    let t := sdlimb l (u - k - limb l p)
    let k := sdlimb l ((p >>> l.limbBitLength : ℕ) - t / 2 ^ l.limbBitLength)
    let (rest, last) ← mulSub qhat vs k us
    return ((t % 2 ^ l.limbBitLength).toNat :: rest, last)

/-- Adds the divisor back. -/
def addBack : List ℕ → ℕ → List ℕ → Except Fault (List ℕ)
  | _, _, [] => .error .outOfRange
  | [], k, u :: us => .ok (limb l (u + k) :: us)
  | v :: vs, k, u :: us => (limb l (u + v + k) :: ·) <$> addBack vs ((u + v + k) >>> l.limbBitLength) us

/-- One pass of the loop over the digits of the quotient, which `divr_vect` does not keep. -/
def divideDigit (vn : List ℕ) (un : List ℕ) (j : ℕ) : Except Fault (List ℕ) := do
  let n := vn.length
  let v1 ← load .outOfRange vn (n - 1)
  let v0 ← load .outOfRange vn (n - 2)
  let u2 ← load .outOfRange un (j + n)
  let u1 ← load .outOfRange un (j + n - 1)
  let u0 ← load .outOfRange un (j + n - 2)
  let ofl := dlimb l (u2 <<< l.limbBitLength) ||| u1
  if zero : v1 = 0 then throw .divisionByZero
  else
    let qhat := correct l v1 v0 u0 (Nat.pos_of_ne_zero zero) (ofl / v1) (ofl % v1)
    let (window, t) ← mulSub l qhat vn 0 (un.drop j)
    let window ← if t < 0 then addBack l vn 0 window else pure window
    return un.take j ++ window

/-- `divr_vect`: the remainder, by Knuth's Algorithm D. -/
def divrVect (u v : List ℕ) : Except Fault Ubint := do
  let m := u.length
  let n := v.length
  if n = 1 then
    let v0 ← load .outOfRange v 0
    if v0 = 0 then throw .divisionByZero
    return ofWord (limb l (remainderByLimb l v0 u.reverse 0))
  else
    let sl := l.limbBitLength - (v.getLastD 0).size
    let vn := (shiftLimbs l sl v 0).1
    let (lower, ofl) := shiftLimbs l sl u 0
    let un ← (List.range (m + 1 - n)).reverse.foldlM (divideDigit l vn) (lower ++ [limb l ofl])
    let first ← load .outOfRange un 0
    let last ← load .outOfRange un (n - 1)
    let sr := l.limbBitLength - sl
    return normalizeLimbs l ((shiftLimbs l sr ((un.take n).tail) (first >>> sl)).1 ++ [last >>> sl])

/-! ### Quotients -/

/-- The limbs, most significant first, divided by one limb. -/
def quotientByLimb (v : ℕ) : List ℕ → ℕ → List ℕ × ℕ
  | [], ofl => ([], ofl)
  | u :: us, ofl =>
    let ofl := dlimb l (ofl <<< l.limbBitLength) ||| u
    let (rest, last) := quotientByLimb v us (ofl % v)
    (limb l (ofl / v) :: rest, last)

/-- The pass of `divideDigit` as `divq_vect` and `divqr_vect` make it. They keep the digit of the quotient. -/
def quotientDigit (vn : List ℕ) (s : List ℕ × List ℕ) (j : ℕ) : Except Fault (List ℕ × List ℕ) := do
  let (q, un) := s
  let n := vn.length
  let v1 ← load .outOfRange vn (n - 1)
  let v0 ← load .outOfRange vn (n - 2)
  let u2 ← load .outOfRange un (j + n)
  let u1 ← load .outOfRange un (j + n - 1)
  let u0 ← load .outOfRange un (j + n - 2)
  let ofl := dlimb l (u2 <<< l.limbBitLength) ||| u1
  if zero : v1 = 0 then throw .divisionByZero
  else
    let qhat := correct l v1 v0 u0 (Nat.pos_of_ne_zero zero) (ofl / v1) (ofl % v1)
    let (window, t) ← mulSub l qhat vn 0 (un.drop j)
    if t < 0 then
      let window ← addBack l vn 0 window
      return (limb l (limb l qhat + maxLimb l) :: q, un.take j ++ window)
    else return (limb l qhat :: q, un.take j ++ window)

/-- The lines that `divq_vect` and `divqr_vect` have in common for a divisor of several limbs: the limbs of the quotient, and
what is left of the shifted dividend. -/
def longDivision (u v : List ℕ) : Except Fault (List ℕ × List ℕ) :=
  let sl := l.limbBitLength - (v.getLastD 0).size
  let vn := (shiftLimbs l sl v 0).1
  let (lower, ofl) := shiftLimbs l sl u 0
  (List.range (u.length + 1 - v.length)).reverse.foldlM (quotientDigit l vn) ([], lower ++ [limb l ofl])

def divqVect (u v : List ℕ) : Except Fault Ubint := do
  if v.length = 1 then
    let v0 ← load .outOfRange v 0
    if v0 = 0 then throw .divisionByZero
    return normalizeLimbs l (quotientByLimb l v0 u.reverse 0).1.reverse
  else
    let (q, _) ← longDivision l u v
    return normalizeLimbs l q

/-- `divqr_vect`: the quotient and the remainder. -/
def divqrVect (u v : List ℕ) : Except Fault (Ubint × Ubint) := do
  let n := v.length
  if n = 1 then
    let v0 ← load .outOfRange v 0
    if v0 = 0 then throw .divisionByZero
    let (q, ofl) := quotientByLimb l v0 u.reverse 0
    return (normalizeLimbs l q.reverse, ofWord (limb l ofl))
  else
    let (q, un) ← longDivision l u v
    let first ← load .outOfRange un 0
    let last ← load .outOfRange un (n - 1)
    let sl := l.limbBitLength - (v.getLastD 0).size
    let sr := l.limbBitLength - sl
    return (normalizeLimbs l q,
      normalizeLimbs l ((shiftLimbs l sr ((un.take n).tail) (first >>> sl)).1 ++ [last >>> sl]))

/-- Numbers of as many bits are compared by their top limb. -/
def dividedBy (a b : Ubint) : Except Fault Ubint :=
  if b.MSB = 0 then .error (.mathError "Divisor is zero")
  else if b.MSB > a.MSB then .ok zero
  else if b.MSB = a.MSB ∧ b.value.getLastD 0 = a.value.getLastD 0 then .ok (ofWord 1)
  else divqVect l a.value b.value

def dividedByEq (a b : Ubint) : Except Fault Ubint :=
  if b.MSB = 0 then .error (.mathError "Divisor is zero")
  else if b.MSB > a.MSB then .ok ⟨0, (a.value.take 1).set 0 0⟩
  else if b.MSB = a.MSB ∧ b.value.getLastD 0 = a.value.getLastD 0 then .ok ⟨1, (a.value.take 1).set 0 1⟩
  else divqVect l a.value b.value

/-- What `MultiplyAndRound` and `DivideAndRound` do with the dividend. -/
def roundedQuotient (t q : Ubint) : Except Fault Ubint := do
  let halfQ ← rShift l q 1
  if (← compare t halfQ) ≤ 0 then return zero
  if t.MSB = halfQ.MSB ∨ t.MSB = q.MSB ∧ t.value.getLastD 0 < q.value.getLastD 0 then return ofWord 1
  let (ans, rv) ← divqrVect l t.value q.value
  if (← compare rv halfQ) > 0 then return add l ans (ofWord 1)
  return ans

def multiplyAndRound (a p q : Ubint) : Except Fault Ubint :=
  if q.MSB = 0 then .error (.mathError "MultiplyAndRound() Divisor is zero")
  else roundedQuotient l (mul l a p) q

def divideAndRound (a q : Ubint) : Except Fault Ubint :=
  if q.MSB = 0 then .error (.mathError "DivideAndRound() Divisor is zero")
  else roundedQuotient l a q

/-- Two is told from three by its limb. -/
def isTwo (modulus : Ubint) : Except Fault Bool :=
  if modulus.MSB = 2 then do
    let v ← load .outOfRange modulus.value 0
    return v = 2
  else .ok false

def mod (a modulus : Ubint) : Except Fault Ubint := do
  if modulus.MSB = 0 then throw (.mathError "Mod() using zero modulus")
  if (← compare a modulus) < 0 then return a
  if ← isTwo modulus then return ofWord ((← load .outOfRange a.value 0) &&& 0x1)
  divrVect l a.value modulus.value

def modEq (a modulus : Ubint) : Except Fault Ubint := do
  if modulus.MSB = 0 then throw (.mathError "Mod() using zero modulus")
  if (← compare a modulus) < 0 then return a
  if ← isTwo modulus then
    let v := (← load .outOfRange a.value 0) &&& 0x1
    return ⟨v, [v]⟩
  divrVect l a.value modulus.value

/-- How the modular operations prepare an operand. -/
def reduce (a modulus : Ubint) : Except Fault Ubint := do
  if (← compare a modulus) ≥ 0 then modEq l a modulus else return a

def modAdd (a b modulus : Ubint) : Except Fault Ubint := do
  let bv ← reduce l b modulus
  let av ← reduce l a modulus
  let av := add l av bv
  if (← compare av modulus) ≥ 0 then sub l av modulus else return av

def modSub (a b modulus : Ubint) : Except Fault Ubint := do
  let bv ← reduce l b modulus
  let av ← reduce l a modulus
  let av := if (← compare av bv) < 0 then add l modulus av else av
  sub l av bv

/-- The operands are meant to be reduced. -/
def modMulFast (a b modulus : Ubint) : Except Fault Ubint :=
  if a.MSB = 0 ∨ b.MSB = 0 then .ok zero
  else if b.MSB = 1 then .ok a
  else if a.MSB = 1 then .ok b
  else do
    let (A, B) := bySize a b
    let ans := mulRows l A.value B.value 0 zero
    if (← compare ans modulus) ≥ 0 then mod l ans modulus else return ans

def modMul (a b modulus : Ubint) : Except Fault Ubint := do
  let bv ← reduce l b modulus
  let av ← reduce l a modulus
  modMulFast l av bv modulus

end Ubint
end MultiKeyFHE
