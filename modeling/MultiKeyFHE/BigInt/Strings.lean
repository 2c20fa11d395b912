import MultiKeyFHE.BigInt.Runs
import MultiKeyFHE.Library.Numerals

/-!
# Strings of big integers

`SetValue` halves an array of decimal digits in place and packs the bits into limbs, `ToString` doubles one, and
`FromBinaryString` cuts a string into chunks from the right. A `char` is a signed byte.
-/

namespace MultiKeyFHE.Ubint
open InPlace Radix Numerals

/-- A conversion to `char`. -/
def char (z : ℤ) : ℤ := z.bmod 256

variable (l : LimbT)

/-! ### The functions -/

def MSBToLimbs (msb : ℕ) : ℕ :=
  if msb = 0 then 1 else (msb >>> l.log2LimbBitLength) + if msb &&& (l.limbBitLength - 1) ≠ 0 then 1 else 0

/-- `SetMSB`, which looks at the top limb only. -/
def setMSB (value : List ℕ) : Ubint :=
  ⟨usint (l.limbBitLength * usint (value.length - 1) + (value.getLastD 0).size), value⟩

def getBitAtIndex (a : Ubint) (index : ℕ) : Except Fault ℕ :=
  let mask := l.limbBitLength - 1
  if index > a.MSB then .ok 0
  else do
    let limb ← load .outOfRange a.value (MSBToLimbs l index - 1)
    let index := index &&& mask
    return (limb >>> (if index ≠ 0 then index - 1 else mask)) &&& 0x1

/-- The inner loop of `SetValue`, from a digit on. What the digit before it has left over comes first. -/
def halveDigits : ℤ → List ℤ → List ℤ
  | _, [] => []
  | odd, d :: rest =>
    let d := char (d + odd * 10)
    d / 2 :: halveDigits (d % 2) rest

/-- The variables of `SetValue`. -/
structure Halving where
  v : List ℤ
  zptr : ℕ
  cnt : ℕ
  val : ℕ
  value : List ℕ

/-- One pass of the outer loop. -/
def Halving.next (s : Halving) : Halving :=
  let arrSize := s.v.length - 1
  let val := limb l (s.val ||| ((s.v.getLastD 0 % 2).toNat <<< s.cnt))
  let v := s.v.take s.zptr ++ halveDigits 0 (s.v.drop s.zptr)
  let zptr := if v.getD s.zptr 0 = 0 then s.zptr + 1 else s.zptr
  if s.cnt + 1 = l.limbBitLength ∨ zptr > arrSize then ⟨v, zptr, 0, 0, s.value ++ [val]⟩ else ⟨v, zptr, s.cnt + 1, val, s.value⟩

/-- The outer loop, which need not end on a string that is not a number. -/
def setValueLoop : ℕ → Halving → Option (List ℕ)
  | 0, _ => none
  | fuel + 1, s => if s.zptr ≤ s.v.length - 1 then setValueLoop fuel (s.next l) else some s.value

def setValue (fuel : ℕ) (vin : List ℤ) : Option Ubint :=
  let v := vin.dropWhile (· = Numerals.zero)
  let v := if v.length = 0 then [Numerals.zero] else v
  (setValueLoop l fuel ⟨v.map fun c => char (c - Numerals.zero), 0, 0, 0, []⟩).map (normalizeLimbs l)

/-- The inner loop of `ToString`, and the digit it may push. The digits stay below twenty. -/
def doubleDigits : List ℕ → ℕ → List ℕ
  | [], ofl => if ofl ≠ 0 then [1] else []
  | a :: rest, ofl =>
    let a := (a <<< 1) + ofl
    if a > 9 then (a - 10) :: doubleDigits rest 1 else a :: doubleDigits rest 0

/-- The outer loop, from the bit `i` down. -/
def toStringLoop (a : Ubint) : ℕ → List ℕ → Except Fault (List ℕ)
  | 0, val => .ok val
  | i + 1, val => do
    let ofl ← getBitAtIndex l a (i + 1)
    toStringLoop a i (doubleDigits val ofl)

def toString (a : Ubint) : Except Fault (List ℤ) := do
  let val ← toStringLoop l a a.MSB [0]
  return (val.map digitCode).reverse

/-- `std::stoi` of one character, which throws unless it is a digit. -/
def stoi (c : ℤ) : Option ℕ := if Numerals.zero ≤ c ∧ c < Numerals.zero + 10 then some (c - Numerals.zero).toNat else none

/-- The piece of the string that goes into limb `i`. -/
def substr (v : List ℤ) (len i : ℕ) : List ℤ :=
  if len > usint ((i + 1) * l.limbBitLength) then (v.drop (len - usint ((i + 1) * l.limbBitLength))).take l.limbBitLength
  else v.take (len % l.limbBitLength)

/-- The inner loop of `FromBinaryString`. -/
def shiftIn (partialValue : ℕ) (c : ℤ) : Option ℕ := do
  let d ← stoi c
  return dlimb l (dlimb l (partialValue + d) <<< 1)

def limbOfString (val : List ℤ) : Option ℕ := do
  let partialValue ← val.foldlM (shiftIn l) 0
  return limb l (partialValue >>> 1)

def fromBinaryString (vin : List ℤ) : Option Ubint :=
  let v := vin.dropWhile (· = Numerals.zero)
  if v.length = 0 then some zero
  else do
    let len := usint v.length
    let value ← (List.range (MSBToLimbs l len)).mapM fun i => limbOfString l (substr l v len i)
    return setMSB l value

variable {l} {x : ℕ}

/-! ### Bits -/

theorem limbBitLength_eq (l : LimbT) : l.limbBitLength = 2 ^ l.log2LimbBitLength := by cases l <;> rfl

theorem and_mask (i : ℕ) : i &&& (l.limbBitLength - 1) = i % l.limbBitLength := by
  rw [limbBitLength_eq, Nat.and_two_pow_sub_one_eq_mod]

theorem MSBToLimbs_eq {msb : ℕ} (some : msb ≠ 0) : MSBToLimbs l msb = (msb - 1) / l.limbBitLength + 1 := by
  unfold MSBToLimbs
  rw [if_neg some, and_mask, Nat.shiftRight_eq_div_pow, ← limbBitLength_eq]
  by_cases full : msb % l.limbBitLength = 0
  · rw [if_neg (not_not.mpr full)]
    cases l <;> simp only [LimbT.limbBitLength] at full ⊢ <;> omega
  · rw [if_pos full]
    cases l <;> simp only [LimbT.limbBitLength] at full ⊢ <;> omega

theorem stored_limb (l : LimbT) (x i : ℕ) : (stored l x).value.getD i 0 = x / 2 ^ (l.limbBitLength * i) % 2 ^ l.limbBitLength := by
  rw [pow_mul]
  unfold stored digits
  split
  · rename_i none
    subst none
    cases i <;> simp
  · exact Nat.getD_digits x i (one_lt_radix l)

theorem limb_bit {i L : ℕ} (below : i % L < L) : x / 2 ^ (L * (i / L)) % 2 ^ L / 2 ^ (i % L) % 2 = x / 2 ^ i % 2 := by
  have split : 2 ^ L = 2 ^ (i % L) * 2 ^ (L - i % L) := by rw [← pow_add, Nat.add_sub_cancel' below.le]
  have even : 2 ∣ 2 ^ (L - i % L) := dvd_pow_self 2 (by omega)
  rw [split, Nat.mod_mul_right_div_self, Nat.mod_mod_of_dvd _ even, Nat.div_div_eq_div_mul, ← pow_add, Nat.div_add_mod]

theorem getBitAtIndex_stored (fits : x.size < 2 ^ 32) {i : ℕ} (pos : 1 ≤ i) :
    getBitAtIndex l (stored l x) i = .ok (x.testBit (i - 1)).toNat := by
  rw [Nat.toNat_testBit]
  unfold getBitAtIndex
  rw [stored_msb fits]
  dsimp only
  split
  · rename_i beyond
    have small : x < 2 ^ (i - 1) := Nat.size_le.mp (by omega)
    rw [Nat.div_eq_of_lt small]
  · rename_i within
    have some : x ≠ 0 := by
      rintro rfl
      rw [Nat.size_zero] at within
      omega
    have bits := bits_pos l
    have length := stored_length (l := l) some
    have nonempty := stored_length_pos (l := l) (n := x)
    have place : (i - 1) / l.limbBitLength < (stored l x).value.length := by
      have mono := Nat.div_le_div_right (c := l.limbBitLength) (show i - 1 ≤ x.size - 1 by omega)
      omega
    have shift : (if i % l.limbBitLength ≠ 0 then i % l.limbBitLength - 1 else l.limbBitLength - 1) = (i - 1) % l.limbBitLength := by
      by_cases full : i % l.limbBitLength = 0
      · rw [if_neg (not_not.mpr full)]
        cases l <;> simp only [LimbT.limbBitLength] at full ⊢ <;> omega
      · rw [if_pos full]
        cases l <;> simp only [LimbT.limbBitLength] at full ⊢ <;> omega
    rw [MSBToLimbs_eq (by omega), Nat.add_sub_cancel, load_ok _ place, and_mask]
    change Except.ok _ = _
    rw [shift, Nat.and_one_is_mod, Nat.shiftRight_eq_div_pow, show (stored l x).value[(i - 1) / l.limbBitLength] = (stored l x).value.getD ((i - 1) / l.limbBitLength) 0 by
        simp [place], stored_limb,
      limb_bit (Nat.mod_lt _ bits)]

/-! ### Halving digits -/

/-- The number of decimal digits, most significant first. -/
def decimal (ds : List ℤ) : ℤ := ds.foldl (fun v d => 10 * v + d) 0

def Digits (ds : List ℤ) : Prop := ∀ d ∈ ds, 0 ≤ d ∧ d ≤ 9

theorem char_of_small {z : ℤ} (low : 0 ≤ z) (high : z < 128) : char z = z := by
  unfold char Int.bmod
  rw [Int.emod_eq_of_lt low (by omega), if_pos (by omega)]

theorem value_eq_decimal (s : List ℤ) : Numerals.value 10 s = decimal (s.map fun c => c - Numerals.zero) := by
  simp [Numerals.value, decimal, List.foldl_map]

theorem decimal_concat (ds : List ℤ) (d : ℤ) : decimal (ds ++ [d]) = 10 * decimal ds + d := by
  simp [decimal]

theorem decimal_cons (d : ℤ) (ds : List ℤ) : decimal (d :: ds) = d * 10 ^ ds.length + decimal ds := by
  induction ds using List.reverseRecOn with
  | nil => simp [decimal]
  | append_singleton ds e ih =>
    rw [← List.cons_append, decimal_concat, decimal_concat, ih, List.length_append, List.length_singleton, pow_succ]
    ring

theorem decimal_bounds {ds : List ℤ} (h : Digits ds) : 0 ≤ decimal ds ∧ decimal ds < 10 ^ ds.length := by
  induction ds with
  | nil => simp [decimal]
  | cons d ds ih =>
    obtain ⟨low, high⟩ := ih fun e he => h e (List.mem_cons_of_mem _ he)
    obtain ⟨nonneg, le⟩ := h d (by simp)
    have scaled : d * 10 ^ ds.length ≤ 9 * 10 ^ ds.length := by gcongr
    have pos : 0 ≤ d * 10 ^ ds.length := by positivity
    rw [decimal_cons, List.length_cons, pow_succ]
    omega

theorem decimal_parity {ds : List ℤ} : ds.getLastD 0 % 2 = decimal ds % 2 := by
  induction ds using List.reverseRecOn with
  | nil => rfl
  | append_singleton ds d =>
    rw [decimal_concat, List.getLastD_concat]
    omega

theorem decimal_replicate_zero (z : ℕ) (ds : List ℤ) : decimal (List.replicate z 0 ++ ds) = decimal ds := by
  induction z with
  | zero => rfl
  | succ z ih =>
    rw [← ih, List.replicate_succ, List.cons_append]
    simp [decimal]

/-- What is left over from a digit counts ten in the next. -/
theorem halveDigits_spec {odd : ℤ} {ds : List ℤ} (ho : 0 ≤ odd ∧ odd ≤ 1) (h : Digits ds) :
    Digits (halveDigits odd ds) ∧ (halveDigits odd ds).length = ds.length ∧
      decimal (halveDigits odd ds) = (odd * 10 ^ ds.length + decimal ds) / 2 := by
  induction ds generalizing odd with
  | nil =>
    refine ⟨by simp [halveDigits, Digits], rfl, ?_⟩
    simp [halveDigits, decimal]
    omega
  | cons d ds ih =>
    obtain ⟨nonneg, le⟩ := h d (by simp)
    unfold halveDigits
    rw [char_of_small (by omega) (by omega)]
    dsimp only
    obtain ⟨digits, length, number⟩ := @ih ((d + odd * 10) % 2) (by omega) fun e he => h e (List.mem_cons_of_mem _ he)
    refine ⟨List.forall_mem_cons.mpr ⟨by omega, digits⟩, by rw [List.length_cons, List.length_cons, length], ?_⟩
    have split : odd * 10 ^ (ds.length + 1) + (d * 10 ^ ds.length + decimal ds) =
        (d + odd * 10) / 2 * 10 ^ ds.length * 2 + ((d + odd * 10) % 2 * 10 ^ ds.length + decimal ds) := by
      have whole := Int.mul_ediv_add_emod (d + odd * 10) 2
      rw [pow_succ]
      linear_combination (-10 ^ ds.length : ℤ) * whole
    rw [decimal_cons, decimal_cons, List.length_cons, length, number, split, Int.add_ediv_of_dvd_left (Dvd.intro_left _ rfl),
      Int.mul_ediv_cancel _ (by decide)]

theorem halved {ds : List ℤ} (h : Digits ds) :
    Digits (halveDigits 0 ds) ∧ (halveDigits 0 ds).length = ds.length ∧ decimal (halveDigits 0 ds) = decimal ds / 2 := by
  simpa using @halveDigits_spec 0 ds (by decide) h

theorem head_eq_zero_iff {d : ℤ} {ds : List ℤ} (h : Digits (d :: ds)) : d = 0 ↔ decimal (d :: ds) < 10 ^ ds.length := by
  obtain ⟨low, high⟩ := decimal_bounds fun e he => h e (List.mem_cons_of_mem _ he)
  obtain ⟨nonneg, -⟩ := h d (by simp)
  rw [decimal_cons]
  constructor
  · rintro rfl
    simpa using high
  · intro short
    by_contra some
    have one : 1 * 10 ^ ds.length ≤ d * 10 ^ ds.length := by
      gcongr
      omega
    omega

/-! ### Packing bits -/

/-- The array from `zptr` on is `X` without leading zeros. -/
def Leads (v : List ℤ) (zptr X : ℕ) : Prop :=
  ∃ d ds, v = List.replicate zptr 0 ++ d :: ds ∧ Digits (d :: ds) ∧ decimal (d :: ds) = X ∧ 10 ^ ds.length ≤ X

theorem Leads.pos {v : List ℤ} {zptr X : ℕ} (leads : Leads v zptr X) : 0 < X := by
  obtain ⟨d, ds, -, -, -, large⟩ := leads
  exact (pow_pos (by decide) _).trans_le large

theorem Leads.within {v : List ℤ} {zptr X : ℕ} (leads : Leads v zptr X) : zptr ≤ v.length - 1 := by
  obtain ⟨d, ds, rfl, -⟩ := leads
  simp

theorem Leads.parity {v : List ℤ} {zptr X : ℕ} (leads : Leads v zptr X) : (v.getLastD 0 % 2).toNat = X % 2 := by
  obtain ⟨d, ds, rfl, -, number, -⟩ := leads
  rw [decimal_parity, decimal_replicate_zero, number]
  omega

/-- Either the pass goes on with one half, or that is zero and `zptr` is past the end. -/
theorem Leads.halve {v v' : List ℤ} {zptr X : ℕ} (leads : Leads v zptr X)
    (pass : v' = v.take zptr ++ halveDigits 0 (v.drop zptr)) :
    v'.length = v.length ∧
      ((X / 2 = 0 ∧ v'.getD zptr 0 = 0 ∧ zptr + 1 > v.length - 1) ∨
        Leads v' (if v'.getD zptr 0 = 0 then zptr + 1 else zptr) (X / 2)) := by
  obtain ⟨d, ds, rfl, digits, number, large⟩ := leads
  obtain ⟨digits', length', number'⟩ := halved digits
  rw [List.take_left' (by simp), List.drop_left' (by simp)] at pass
  obtain ⟨d', ds', shape⟩ : ∃ d' ds', halveDigits 0 (d :: ds) = d' :: ds' := ⟨_, _, rfl⟩
  rw [shape] at pass digits' length' number'
  subst pass
  have same : ds'.length = ds.length := by simpa using length'
  have first : (List.replicate zptr 0 ++ d' :: ds').getD zptr 0 = d' := by simp
  have half : decimal (d' :: ds') = (X / 2 : ℕ) := by
    rw [number', number]
    norm_cast
  refine ⟨by simp [same], ?_⟩
  rw [first]
  by_cases none : d' = 0
  · have short := (head_eq_zero_iff digits').mp none
    rw [half, same] at short
    rw [if_pos none]
    cases ds' with
    | nil =>
      left
      have empty : ds.length = 0 := same.symm
      rw [empty, pow_zero] at short
      refine ⟨by omega, none, ?_⟩
      simp [empty]
    | cons e es =>
      right
      subst none
      refine ⟨e, es, ?_, fun c hc => digits' c (List.mem_cons_of_mem _ hc), ?_, ?_⟩
      · rw [List.replicate_succ', List.append_assoc, List.singleton_append]
      · rw [← half, decimal_cons 0, zero_mul, zero_add]
      · rw [← same, List.length_cons, pow_succ] at large
        omega
  · right
    rw [if_neg none]
    refine ⟨d', ds', rfl, digits', half, ?_⟩
    have long := mt (head_eq_zero_iff digits').mpr none
    rw [half] at long
    exact_mod_cast not_lt.mp long

/-- What the loop of `SetValue` has done of `x`: `X` is left, and the bits below it are packed. -/
structure Halving.Holds (l : LimbT) (s : Halving) (x X : ℕ) : Prop where
  leads : Leads s.v s.zptr X
  limbs : ∀ limb ∈ s.value, limb < 2 ^ l.limbBitLength
  room : s.cnt < l.limbBitLength
  val : s.val < 2 ^ s.cnt
  packed : Nat.ofDigits (2 ^ l.limbBitLength) s.value + (2 ^ l.limbBitLength) ^ s.value.length * (s.val + 2 ^ s.cnt * X) = x

theorem pack_bit {val cnt bit : ℕ} (room : cnt < l.limbBitLength) (below : val < 2 ^ cnt) (one : bit ≤ 1) :
    limb l (val ||| (bit <<< cnt)) = val + 2 ^ cnt * bit ∧ val + 2 ^ cnt * bit < 2 ^ (cnt + 1) := by
  have small : val + 2 ^ cnt * bit < 2 ^ (cnt + 1) := by
    have le : 2 ^ cnt * bit ≤ 2 ^ cnt * 1 := Nat.mul_le_mul_left _ one
    rw [pow_succ]
    omega
  refine ⟨?_, small⟩
  rw [Nat.or_comm, ← Nat.shiftLeft_add_eq_or_of_lt below, Nat.shiftLeft_eq, add_comm, mul_comm bit]
  exact limb_of_lt (small.trans_le (Nat.pow_le_pow_right two_pos room))

theorem Halving.Holds.next {s : Halving} {X : ℕ} (holds : s.Holds l x X) :
    (X / 2 = 0 ∧ (s.next l).zptr > (s.next l).v.length - 1 ∧ (s.next l).value ≠ [] ∧
      (∀ limb ∈ (s.next l).value, limb < 2 ^ l.limbBitLength) ∧ Nat.ofDigits (2 ^ l.limbBitLength) (s.next l).value = x) ∨
    (s.next l).Holds l x (X / 2) := by
  obtain ⟨leads, limbs, room, val, packed⟩ := holds
  obtain ⟨bit, below⟩ := pack_bit room val (show X % 2 ≤ 1 by omega)
  have whole : s.val + 2 ^ s.cnt * X = s.val + 2 ^ s.cnt * (X % 2) + 2 ^ (s.cnt + 1) * (X / 2) := by
    conv_lhs => rw [← Nat.div_add_mod X 2]
    ring
  rw [whole] at packed
  obtain ⟨length, rest⟩ := leads.halve rfl
  have filled : ∀ limb ∈ s.value ++ [s.val + 2 ^ s.cnt * (X % 2)], limb < 2 ^ l.limbBitLength := by
    intro limb hl
    rcases List.mem_append.mp hl with old | new
    · exact limbs limb old
    · rw [List.mem_singleton.mp new]
      exact below.trans_le (Nat.pow_le_pow_right two_pos room)
  unfold Halving.next
  rw [leads.parity, bit]
  dsimp only
  set v := s.v.take s.zptr ++ halveDigits 0 (s.v.drop s.zptr)
  rcases rest with ⟨none, first, past⟩ | leads'
  · left
    rw [if_pos first, if_pos (.inr past)]
    refine ⟨none, by rw [length]; exact past, by simp, filled, ?_⟩
    rw [none, mul_zero, add_zero] at packed
    rw [ofDigits_concat, packed]
  · right
    have within := leads'.within
    rw [length] at within
    by_cases full : s.cnt + 1 = l.limbBitLength
    · rw [if_pos (.inl full)]
      refine ⟨leads', filled, bits_pos l, by simp, ?_⟩
      rw [← packed, ofDigits_concat, List.length_append, List.length_singleton, full]
      ring
    · rw [if_neg (by omega)]
      exact ⟨leads', limbs, by dsimp only; omega, below, packed⟩

theorem setValueLoop_ok (X : ℕ) {s : Halving} (holds : s.Holds l x X) {fuel : ℕ} (enough : X + 1 < fuel) :
    ∃ limbs, setValueLoop l fuel s = some limbs ∧ limbs ≠ [] ∧ (∀ limb ∈ limbs, limb < 2 ^ l.limbBitLength) ∧
      Nat.ofDigits (2 ^ l.limbBitLength) limbs = x := by
  induction X using Nat.strong_induction_on generalizing s fuel with
  | _ X ih =>
    obtain ⟨fuel, rfl⟩ : ∃ f, fuel = f + 1 := ⟨fuel - 1, by omega⟩
    have pos := holds.leads.pos
    rw [setValueLoop, if_pos holds.leads.within]
    rcases holds.next with ⟨-, past, nonempty, limbs, number⟩ | more
    · obtain ⟨fuel, rfl⟩ : ∃ f, fuel = f + 1 := ⟨fuel - 1, by omega⟩
      rw [setValueLoop, if_neg (not_le.mpr past)]
      exact ⟨_, rfl, nonempty, limbs, number⟩
    · exact ih (X / 2) (by omega) more (by omega)

theorem digits_of_numeral {s : List ℤ} (h : IsNumeral 10 s) :
    (s.map fun c => char (c - Numerals.zero)) = s.map (fun c => c - Numerals.zero) ∧ Digits (s.map fun c => c - Numerals.zero) := by
  constructor
  · apply List.map_congr_left
    intro c hc
    obtain ⟨low, high⟩ := h c hc
    exact char_of_small (by omega) (by omega)
  · intro d hd
    obtain ⟨c, hc, rfl⟩ := List.mem_map.mp hd
    obtain ⟨low, high⟩ := h c hc
    omega

theorem leads_numeral (some : x ≠ 0) : Leads ((numeral 10 x).map fun c => char (c - Numerals.zero)) 0 x := by
  obtain ⟨same, digits⟩ := digits_of_numeral (isNumeral_numeral (b := 10) (by decide) x)
  have number := value_eq_decimal (numeral 10 x)
  have large := le_ofDigits_digits (B := 10) (by decide) some
  rw [value_numeral] at number
  rw [Radix.digits, if_neg some, ← length_numeral some, ← List.length_map (fun c : ℤ => c - Numerals.zero)] at large
  obtain ⟨d, ds, shape⟩ := List.exists_cons_of_ne_nil (mt List.map_eq_nil_iff.mp (numeral_ne_nil 10 x))
  rw [same]
  rw [shape] at digits number large ⊢
  exact ⟨d, ds, by simp, digits, number.symm, by simpa using large⟩

theorem setValue_ok (z x : ℕ) {fuel : ℕ} (enough : x + 1 < fuel) :
    setValue l fuel (List.replicate z Numerals.zero ++ numeral 10 x) = some (stored l x) := by
  unfold setValue
  rw [dropWhile_numeral]
  by_cases none : x = 0
  · obtain ⟨fuel, rfl⟩ : ∃ f, fuel = f + 2 := ⟨fuel - 2, by omega⟩
    subst none
    cases l <;> rfl
  · rw [if_neg none]
    dsimp only
    rw [if_neg (mt List.length_eq_zero_iff.mp (numeral_ne_nil 10 x))]
    have start : Halving.Holds l ⟨(numeral 10 x).map fun c => char (c - Numerals.zero), 0, 0, 0, []⟩ x x :=
      ⟨leads_numeral none, by simp, bits_pos l, by simp, by simp⟩
    obtain ⟨limbs, run, nonempty, lt, number⟩ := setValueLoop_ok x start enough
    rw [run, Option.map_some, normalizeLimbs_eq nonempty lt, number]

/-! ### Doubling digits -/

theorem doubleDigits_spec {val : List ℕ} {ofl : ℕ} (digits : ∀ a ∈ val, a < 10) (ho : ofl ≤ 1) :
    (∀ a ∈ doubleDigits val ofl, a < 10) ∧ Nat.ofDigits 10 (doubleDigits val ofl) = 2 * Nat.ofDigits 10 val + ofl := by
  induction val generalizing ofl with
  | nil =>
    unfold doubleDigits
    split
    · simp
      omega
    · simp
      omega
  | cons a rest ih =>
    have low := digits a (by simp)
    have others : ∀ c ∈ rest, c < 10 := fun c hc => digits c (List.mem_cons_of_mem _ hc)
    unfold doubleDigits
    rw [Nat.shiftLeft_eq, pow_one]
    dsimp only
    split
    · obtain ⟨lt, number⟩ := ih others (le_refl 1)
      refine ⟨List.forall_mem_cons.mpr ⟨by omega, lt⟩, ?_⟩
      rw [Nat.ofDigits_cons, Nat.ofDigits_cons, number]
      omega
    · obtain ⟨lt, number⟩ := ih others (Nat.zero_le 1)
      refine ⟨List.forall_mem_cons.mpr ⟨by omega, lt⟩, ?_⟩
      rw [Nat.ofDigits_cons, Nat.ofDigits_cons, number]
      omega

theorem doubleDigits_length (val : List ℕ) (ofl : ℕ) :
    (doubleDigits val ofl).length = val.length ∨
      (doubleDigits val ofl).length = val.length + 1 ∧ (doubleDigits val ofl).getLastD 0 = 1 := by
  induction val generalizing ofl with
  | nil =>
    unfold doubleDigits
    split
    · exact .inr ⟨rfl, rfl⟩
    · exact .inl rfl
  | cons a rest ih =>
    have grow : ∀ d o, (d :: doubleDigits rest o).length = rest.length + 1 ∨
        (d :: doubleDigits rest o).length = rest.length + 1 + 1 ∧ (d :: doubleDigits rest o).getLastD 0 = 1 := by
      intro d o
      rcases ih o with same | ⟨more, last⟩
      · exact .inl (by rw [List.length_cons, same])
      · right
        obtain ⟨e, es, shape⟩ := List.exists_cons_of_length_eq_add_one more
        rw [shape] at more last ⊢
        exact ⟨by rw [List.length_cons, more], by simpa using last⟩
    unfold doubleDigits
    dsimp only
    split <;> exact grow _ _

theorem doubleDigits_canonical {val : List ℕ} {ofl : ℕ} (canonical : Canonical 10 val) (ho : ofl ≤ 1) :
    Canonical 10 (doubleDigits val ofl) := by
  obtain ⟨lt, number⟩ := doubleDigits_spec canonical.lt ho
  have nonempty := List.length_pos_of_ne_nil canonical.nonempty
  rcases doubleDigits_length val ofl with same | ⟨more, last⟩
  · have kept : doubleDigits val ofl ≠ [] := List.ne_nil_of_length_pos (by omega)
    rcases canonical.top with top | single
    · apply canonical_of_le (by decide) kept lt
      have some : Nat.ofDigits 10 val ≠ 0 := by
        intro none
        have zero := canonical.eq_digits (by decide)
        rw [none] at zero
        rw [zero] at top
        exact top rfl
      have large := le_ofDigits_digits (B := 10) (by decide) some
      rw [← canonical.eq_digits (by decide)] at large
      rw [same, number]
      omega
    · exact ⟨kept, lt, .inr (same.trans single)⟩
  · exact ⟨List.ne_nil_of_length_pos (by omega), lt, .inl (by omega)⟩

theorem toStringLoop_ok (fits : x.size < 2 ^ 32) (i : ℕ) {val : List ℕ} (canonical : Canonical 10 val)
    (number : Nat.ofDigits 10 val = x / 2 ^ i) : toStringLoop l (stored l x) i val = .ok (Radix.digits 10 x) := by
  induction i generalizing val with
  | zero =>
    rw [pow_zero, Nat.div_one] at number
    rw [toStringLoop, canonical.eq_digits (by decide), number]
  | succ i ih =>
    have bit : (x.testBit i).toNat ≤ 1 := Bool.toNat_le _
    rw [toStringLoop, getBitAtIndex_stored fits (Nat.le_add_left 1 i), Nat.add_sub_cancel]
    apply ih (doubleDigits_canonical canonical bit)
    rw [(doubleDigits_spec canonical.lt bit).2, number, Nat.toNat_testBit, pow_succ, ← Nat.div_div_eq_div_mul, Nat.div_add_mod]

theorem toString_stored (fits : x.size < 2 ^ 32) : toString l (stored l x) = .ok (numeral 10 x) := by
  have start : Nat.ofDigits 10 [0] = x / 2 ^ x.size := by
    rw [Nat.div_eq_of_lt (Nat.lt_size_self x)]
    rfl
  unfold toString
  rw [stored_msb fits, toStringLoop_ok fits x.size ⟨by simp, by simp, .inr rfl⟩ start]
  change Except.ok _ = _
  rw [← List.map_reverse]
  unfold numeral Radix.digits
  split <;> rfl

/-! ### Chunks of bits -/

theorem shiftIn_digit {p : ℕ} {c : ℤ} (low : Numerals.zero ≤ c) (high : c < Numerals.zero + 2) (small : p < 2 * 2 ^ l.limbBitLength) :
    shiftIn l p c = some (2 * (p + (c - Numerals.zero).toNat)) := by
  have wide : 2 ^ (2 * l.limbBitLength) = 2 ^ l.limbBitLength * 2 ^ l.limbBitLength := by rw [two_mul, pow_add]
  have large : 8 * 2 ^ l.limbBitLength ≤ 2 ^ l.limbBitLength * 2 ^ l.limbBitLength :=
    Nat.mul_le_mul_right _ (by cases l <;> decide)
  have digit : (c - Numerals.zero).toNat < 2 := by omega
  have one := one_lt_radix l
  unfold shiftIn stoi
  rw [if_pos ⟨low, by omega⟩]
  change some (dlimb l (dlimb l (p + (c - Numerals.zero).toNat) <<< 1)) = _
  have fits : p + (c - Numerals.zero).toNat < 2 ^ (2 * l.limbBitLength) := by omega
  unfold dlimb
  rw [Nat.mod_eq_of_lt fits, Nat.shiftLeft_eq, pow_one, Nat.mod_eq_of_lt (by omega), Nat.mul_comm]

theorem foldlM_shiftIn {val : List ℤ} (h : IsNumeral 2 val) (short : val.length ≤ l.limbBitLength) :
    val.foldlM (shiftIn l) 0 = some (2 * (Numerals.value 2 val).toNat) := by
  induction val using List.reverseRecOn with
  | nil => rfl
  | append_singleton t c ih =>
    obtain ⟨low, high⟩ := h c (by simp)
    rw [List.length_append, List.length_singleton] at short
    have nonneg := value_nonneg h.of_append
    have below : (Numerals.value 2 t).toNat < 2 ^ l.limbBitLength := by
      have bound := value_lt h.of_append
      have grow : 2 ^ t.length ≤ 2 ^ l.limbBitLength := Nat.pow_le_pow_right two_pos (by omega)
      zify at grow ⊢
      rw [Int.toNat_of_nonneg nonneg]
      exact bound.trans_le grow
    rw [List.foldlM_append, ih h.of_append (by omega)]
    simp only [Option.bind_eq_bind, Option.bind_some, List.foldlM_cons, List.foldlM_nil]
    rw [shiftIn_digit low high (by omega), value_concat]
    simp only [Option.bind_some, Option.pure_def, Option.some.injEq]
    push_cast at *
    omega

theorem limbOfString_ok {val : List ℤ} (h : IsNumeral 2 val) (short : val.length ≤ l.limbBitLength) :
    limbOfString l val = some (Numerals.value 2 val).toNat := by
  have below : (Numerals.value 2 val).toNat < 2 ^ l.limbBitLength := by
    have bound := value_lt h
    have grow : 2 ^ val.length ≤ 2 ^ l.limbBitLength := Nat.pow_le_pow_right two_pos short
    zify at grow ⊢
    rw [Int.toNat_of_nonneg (value_nonneg h)]
    exact bound.trans_le grow
  unfold limbOfString
  rw [foldlM_shiftIn h short]
  change some (limb l ((2 * (Numerals.value 2 val).toNat) >>> 1)) = _
  rw [Nat.shiftRight_eq_div_pow, pow_one, Nat.mul_div_cancel_left _ two_pos, limb_of_lt below]

theorem limbOfString_lt {val : List ℤ} {n : ℕ} (run : limbOfString l val = some n) : n < 2 ^ l.limbBitLength := by
  unfold limbOfString at run
  obtain ⟨p, -, last⟩ := Option.bind_eq_some_iff.mp run
  obtain rfl := Option.some.inj last
  exact limb_lt _

theorem isNumeral_binary (x : ℕ) : IsNumeral 2 (numeral 2 x) := isNumeral_numeral (by decide) x

theorem substr_numeral (x : ℕ) (len i : ℕ) : IsNumeral 2 (substr l (numeral 2 x) len i) := by
  intro c hc
  apply isNumeral_binary x
  unfold substr at hc
  split at hc
  · exact List.mem_of_mem_drop (List.mem_of_mem_take hc)
  · exact List.mem_of_mem_take hc

theorem substr_length (v : List ℤ) (len i : ℕ) : (substr l v len i).length ≤ l.limbBitLength := by
  unfold substr
  split
  · exact List.length_take_le ..
  · exact (List.length_take_le ..).trans (Nat.mod_lt _ (bits_pos l)).le

/-- Limb `i` gets its bits, unless its end is the end of the string. -/
theorem value_substr (some : x ≠ 0) {i : ℕ} (inside : i * l.limbBitLength < x.size) (apart : (i + 1) * l.limbBitLength ≠ x.size)
    (room : (i + 1) * l.limbBitLength < 2 ^ 32) :
    Numerals.value 2 (substr l (numeral 2 x) x.size i) = (x / 2 ^ (l.limbBitLength * i) % 2 ^ l.limbBitLength : ℕ) := by
  have length := length_numeral_two some
  have numerals := isNumeral_binary x
  have next : (i + 1) * l.limbBitLength = i * l.limbBitLength + l.limbBitLength := Nat.succ_mul ..
  unfold substr
  rw [usint, Nat.mod_eq_of_lt room, mul_comm l.limbBitLength i]
  split
  · rename_i below
    have window := value_window numerals (k := i * l.limbBitLength) (m := l.limbBitLength) (by omega)
    rw [length, ← next, value_numeral] at window
    rw [window]
    push_cast
    rfl
  · rename_i above
    have rest : x.size % l.limbBitLength = x.size - i * l.limbBitLength := by
      rw [show x.size = x.size - i * l.limbBitLength + i * l.limbBitLength by omega, Nat.add_mul_mod_self_right,
        Nat.mod_eq_of_lt (by omega), Nat.add_sub_cancel]
    have window := value_window numerals (k := i * l.limbBitLength) (m := x.size - i * l.limbBitLength) (by omega)
    have top : x / 2 ^ (i * l.limbBitLength) < 2 ^ (x.size - i * l.limbBitLength) := by
      rw [Nat.div_lt_iff_lt_mul (by positivity), ← pow_add, Nat.sub_add_cancel inside.le]
      exact Nat.lt_size_self x
    have limb : 2 ^ (x.size - i * l.limbBitLength) ≤ 2 ^ l.limbBitLength := Nat.pow_le_pow_right two_pos (by omega)
    rw [length, Nat.add_sub_cancel' inside.le, Nat.sub_self, List.drop_zero, value_numeral] at window
    rw [rest, window, Nat.mod_eq_of_lt (top.trans_le limb), ← Nat.mod_eq_of_lt top]
    push_cast
    rfl

/-- The top limb gets nothing when it is full, or when the end of the string is not a word. -/
theorem substr_empty {v : List ℤ} (length : v.length < 2 ^ 32) {i : ℕ}
    (lost : (i + 1) * l.limbBitLength = v.length ∨ (i + 1) * l.limbBitLength = 2 ^ 32) : substr l v v.length i = [] := by
  unfold substr
  rcases lost with full | wraps
  · rw [full, usint, Nat.mod_eq_of_lt length, if_neg (lt_irrefl _), ← full, Nat.mul_mod_left, List.take_zero]
  · rw [wraps]
    split
    · simp [usint]
    · rename_i none
      have empty : v = [] := by simpa [usint] using none
      rw [empty, List.take_nil]

/-! ### From binary strings -/

theorem ofDigits_limbs (B x n : ℕ) : Nat.ofDigits B ((List.range n).map fun i => x / B ^ i % B) = x % B ^ n := by
  induction n with
  | zero => simp [Nat.mod_one]
  | succ n ih =>
    rw [List.range_succ, List.map_append, List.map_singleton, ofDigits_concat, ih, List.length_map, List.length_range,
      Nat.mod_pow_succ]

theorem mapM_some {α β : Type} {f : α → Option β} {g : α → β} (as : List α) (each : ∀ a ∈ as, f a = some (g a)) :
    as.mapM f = some (as.map g) := by
  induction as with
  | nil => rfl
  | cons a as ih => simp [each a (by simp), ih fun c hc => each c (List.mem_cons_of_mem _ hc)]

theorem mapM_some_mem {α β : Type} {f : α → Option β} (as : List α) {bs : List β} (run : as.mapM f = some bs) :
    bs.length = as.length ∧ ∀ b ∈ bs, ∃ a ∈ as, f a = some b := by
  induction as generalizing bs with
  | nil =>
    obtain rfl : [] = bs := by simpa using run
    simp
  | cons a as ih =>
    rw [List.mapM_cons] at run
    obtain ⟨b, first, rest⟩ := Option.bind_eq_some_iff.mp run
    obtain ⟨cs, others, stop⟩ := Option.bind_eq_some_iff.mp rest
    obtain rfl := Option.some.inj stop
    obtain ⟨length, mem⟩ := ih others
    refine ⟨by simp [length], List.forall_mem_cons.mpr ⟨⟨a, by simp, first⟩, fun c hc => ?_⟩⟩
    obtain ⟨d, hd, same⟩ := mem c hc
    exact ⟨d, List.mem_cons_of_mem _ hd, same⟩

/-- `SetMSB` is enough where the top limb is not zero. -/
theorem setMSB_canonical {v : List ℕ} (canonical : Canonical (2 ^ l.limbBitLength) v) :
    setMSB l v = stored l (Nat.ofDigits (2 ^ l.limbBitLength) v) := by
  refine congrArg₂ Ubint.mk ?_ (canonical.eq_digits (one_lt_radix l))
  rw [usint_mul_add, canonical.size_eq (bits_pos l)]

/-- The numbers whose top limb is found. -/
def TopFound (l : LimbT) (x : ℕ) : Prop := x = 0 ∨ (¬ l.limbBitLength ∣ x.size ∧ x.size + l.limbBitLength < 2 ^ 32)

theorem fromBinaryString_ok (z : ℕ) (found : TopFound l x) :
    fromBinaryString l (List.replicate z Numerals.zero ++ numeral 2 x) = some (stored l x) := by
  unfold fromBinaryString
  rw [dropWhile_numeral]
  rcases found with rfl | ⟨apart, room⟩
  · rfl
  by_cases none : x = 0
  · subst none
    rfl
  have length := length_numeral_two none
  have positive := Nat.size_pos.mpr (Nat.pos_of_ne_zero none)
  have bits := bits_pos l
  rw [if_neg none]
  dsimp only
  rw [length, if_neg (by omega), usint, Nat.mod_eq_of_lt (by omega), MSBToLimbs_eq (by omega)]
  set top := (x.size - 1) / l.limbBitLength with htop
  have before : top * l.limbBitLength ≤ x.size - 1 := Nat.div_mul_le_self _ _
  have after : x.size - 1 < (top + 1) * l.limbBitLength := Nat.lt_mul_of_div_lt (Nat.lt_succ_self top) bits
  have limbs : ∀ i ∈ List.range (top + 1), limbOfString l (substr l (numeral 2 x) x.size i) =
      some (x / (2 ^ l.limbBitLength) ^ i % 2 ^ l.limbBitLength) := by
    intro i hi
    have le : i ≤ top := Nat.lt_succ_iff.mp (List.mem_range.mp hi)
    have mono : i * l.limbBitLength ≤ top * l.limbBitLength := Nat.mul_le_mul_right _ le
    have next : (i + 1) * l.limbBitLength = i * l.limbBitLength + l.limbBitLength := Nat.succ_mul ..
    rw [limbOfString_ok (substr_numeral x _ _) (substr_length _ _ _), value_substr none (by omega)
      (fun same => apart (Dvd.intro_left _ same)) (by omega), Int.toNat_natCast, pow_mul]
  have number : Nat.ofDigits (2 ^ l.limbBitLength)
      ((List.range (top + 1)).map fun i => x / (2 ^ l.limbBitLength) ^ i % 2 ^ l.limbBitLength) = x := by
    rw [ofDigits_limbs, Nat.mod_eq_of_lt]
    rw [← pow_mul]
    exact (Nat.lt_size_self x).trans_le (Nat.pow_le_pow_right two_pos (by rw [mul_comm]; omega))
  have canonical : Canonical (2 ^ l.limbBitLength)
      ((List.range (top + 1)).map fun i => x / (2 ^ l.limbBitLength) ^ i % 2 ^ l.limbBitLength) := by
    apply canonical_of_le (one_lt_radix l) (by simp)
    · intro limb hl
      obtain ⟨i, -, rfl⟩ := List.mem_map.mp hl
      exact Nat.mod_lt _ (by positivity)
    · rw [number, List.length_map, List.length_range, Nat.add_sub_cancel, ← pow_mul]
      exact Nat.lt_size.mp (by rw [mul_comm]; omega)
  rw [mapM_some _ limbs]
  change some (setMSB l _) = _
  rw [setMSB_canonical canonical, number]

/-- Without its top limb the number is smaller. -/
theorem fromBinaryString_lost (some : x ≠ 0) (fits : x.size < 2 ^ 32) {top : ℕ} (split : top = (x.size - 1) / l.limbBitLength)
    (lost : (top + 1) * l.limbBitLength = x.size ∨ (top + 1) * l.limbBitLength = 2 ^ 32) {a : Ubint}
    (run : fromBinaryString l (numeral 2 x) = Option.some a) : number l a < x := by
  have length := length_numeral_two some
  have positive := Nat.size_pos.mpr (Nat.pos_of_ne_zero some)
  have bare := dropWhile_numeral (b := 2) 0 x
  rw [List.replicate_zero, List.nil_append, if_neg some] at bare
  unfold fromBinaryString at run
  rw [bare] at run
  dsimp only at run
  rw [length, if_neg (by omega), usint, Nat.mod_eq_of_lt fits, MSBToLimbs_eq (by omega), ← split, List.range_succ,
    List.mapM_append] at run
  obtain ⟨limbs, filled, stop⟩ := Option.bind_eq_some_iff.mp run
  obtain ⟨low, lower, last⟩ := Option.bind_eq_some_iff.mp filled
  obtain rfl := Option.some.inj stop
  have empty := substr_empty (l := l) (v := numeral 2 x) (i := top) (by omega) (by rwa [length])
  rw [length] at empty
  have nothing : limbOfString l [] = Option.some 0 := by
    cases l <;> rfl
  simp only [List.mapM_cons, List.mapM_nil, empty, nothing, Option.bind_eq_bind, Option.bind_some, Option.pure_def,
    Option.some.injEq] at last
  subst last
  obtain ⟨count, mem⟩ := mapM_some_mem _ lower
  have below : Nat.ofDigits (2 ^ l.limbBitLength) low < (2 ^ l.limbBitLength) ^ low.length := by
    apply ofDigits_lt (one_lt_radix l)
    intro limb hl
    obtain ⟨i, -, found⟩ := mem limb hl
    exact limbOfString_lt found
  have inside : top * l.limbBitLength < x.size := by
    have le := Nat.div_mul_le_self (x.size - 1) l.limbBitLength
    rw [← split] at le
    omega
  have large : (2 ^ l.limbBitLength) ^ top ≤ x := by
    rw [← pow_mul, mul_comm]
    exact Nat.lt_size.mp inside
  unfold number setMSB
  dsimp only
  rw [ofDigits_concat, mul_zero, add_zero]
  rw [count, List.length_range] at below
  omega

/-! ### Round trips -/

/-- What is read from the strings of `x` is `x`, normalised, and its string and its bits are those of `x`. -/
structure RoundTrips (l : LimbT) (x : ℕ) : Prop where
  decimal : ∀ z, ∃ a steps, (∀ fuel ≥ steps, setValue l fuel (List.replicate z Numerals.zero ++ numeral 10 x) = some a) ∧
    Represents l a x ∧ toString l a = .ok (numeral 10 x) ∧
    ∀ i, 1 ≤ i → i < 2 ^ 32 → getBitAtIndex l a i = .ok (x.testBit (i - 1)).toNat
  binary : ∀ z, ∃ a, fromBinaryString l (List.replicate z Numerals.zero ++ numeral 2 x) = some a ∧ Represents l a x

theorem round_trips_iff : RoundTrips l x ↔ TopFound l x := by
  constructor
  · intro trips
    obtain ⟨a, steps, run, same, -⟩ := trips.decimal 0
    obtain ⟨rfl, fits⟩ := same.eq_stored
    obtain ⟨b, read, number⟩ := trips.binary 0
    rw [List.replicate_zero, List.nil_append] at read
    by_cases none : x = 0
    · exact .inl none
    have positive := Nat.size_pos.mpr (Nat.pos_of_ne_zero none)
    have found : ¬ (((x.size - 1) / l.limbBitLength + 1) * l.limbBitLength = x.size ∨
        ((x.size - 1) / l.limbBitLength + 1) * l.limbBitLength = 2 ^ 32) := by
      intro lost
      have smaller := fromBinaryString_lost none fits rfl lost read
      rw [number.2] at smaller
      exact lt_irrefl x smaller
    right
    cases l <;> simp only [LimbT.limbBitLength] at found ⊢ <;> constructor <;> omega
  · intro found
    have fits : x.size < 2 ^ 32 := by
      rcases found with rfl | ⟨-, room⟩
      · decide
      · omega
    refine ⟨fun z => ⟨stored l x, x + 2, fun fuel enough => setValue_ok z x enough, represents_stored fits, toString_stored fits,
      fun i pos _ => getBitAtIndex_stored fits pos⟩, fun z => ⟨stored l x, fromBinaryString_ok z found, represents_stored fits⟩⟩

/-- The string of a number of 32 bits is one chunk, which the parser takes for an empty one. -/
theorem thirty_two_bits_lost : ¬ RoundTrips .uint32 (2 ^ 31) := by
  intro trips
  obtain ⟨a, read, number⟩ := trips.binary 0
  rw [List.replicate_zero, List.nil_append] at read
  have size : (2 ^ 31).size = 32 := Nat.size_pow
  have smaller := fromBinaryString_lost (by decide) (by rw [size]; decide) rfl (.inl (by rw [size]; rfl)) read
  rw [number.2] at smaller
  exact lt_irrefl _ smaller

end MultiKeyFHE.Ubint
