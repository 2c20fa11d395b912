import MultiKeyFHE.BigInt.Modular
import MultiKeyFHE.BigInt.Strings
import MultiKeyFHE.Library.Continuants
import MultiKeyFHE.Native.Decimal
import MultiKeyFHE.Native.Modular

/-!
# Inverses of big integers

`ModInverse` divides down to the remainder one, keeps the quotients, and climbs back up. It looks for a remainder of zero
once, after the first division.
-/

namespace MultiKeyFHE.Ubint
open InPlace Continuants
variable (l : LimbT)

/-- The `while` loop, from its test. A division by zero ends it. -/
def northLoop : ℕ → Ubint → Ubint → List Ubint → Option (Except Fault (List Ubint))
  | 0, _, _, _ => none
  | fuel + 1, second, mod_back, quotient =>
    if mod_back.MSB = 1 then some (.ok quotient)
    else
      -- `first = second; second = mod_back;`
      match divqrVect l second.value mod_back.value with
      | .error fault => some (.error fault)
      | .ok (q, remainder) => northLoop fuel mod_back remainder (quotient ++ [q])

/-- One pass of the loop back: `first` and `second` after it. -/
def southStep (s : Ubint × Ubint) (q : Ubint) : Ubint × Ubint := (s.2, add l (mul l q s.2) s.1)

/-- The loop back, and what is returned. -/
def south (modulus : Ubint) (quotient : List Ubint) : Except Fault Ubint :=
  let (_, mod_back) := quotient.reverse.foldl (southStep l) (zero, ofWord 1)
  if quotient.length &&& 0x1 ≠ 0 then sub l modulus mod_back else .ok mod_back

def noInverse (a modulus : Ubint) : Except Fault Ubint := do
  let self ← toString l a
  let other ← toString l modulus
  throw (.mathError (NativeDecimal.text self ++ " does not have a ModInverse using " ++ NativeDecimal.text other))

/-- The first division, and what follows it. -/
def modInverseFrom (fuel : ℕ) (a second modulus : Ubint) : Option (Except Fault Ubint) :=
  match divqrVect l modulus.value second.value with
  | .error fault => some (.error fault)
  | .ok (q, mod_back) =>
    if mod_back.MSB = 0 then some (noInverse l a modulus)
    else (northLoop l fuel second mod_back [q]).map fun run => run.bind (south l modulus)

def modInverse (fuel : ℕ) (a modulus : Ubint) : Option (Except Fault Ubint) :=
  if a.MSB = 0 then some (.error (.mathError "Zero has no inverse"))
  else
    let reduced : Except Fault Ubint := do
      if (← compare a modulus) ≥ 0 then mod l a modulus else return a
    match reduced with
    | .error fault => some (.error fault)
    | .ok second => if second.MSB = 1 then some (.ok second) else modInverseFrom l fuel a second modulus

variable {l} {a b m s : ℕ} {qs : List ℕ}

theorem msb_eq_one_iff (fits : a.size < 2 ^ 32) : (stored l a).MSB = 1 ↔ a = 1 := by
  rw [stored_msb fits]
  constructor
  · intro one
    have below := Nat.lt_size_self a
    have some := Nat.size_pos.mp (show 0 < a.size by omega)
    rw [one] at below
    omega
  · rintro rfl
    rfl

theorem msb_eq_zero_iff (fits : a.size < 2 ^ 32) : (stored l a).MSB = 0 ↔ a = 0 := by
  rw [stored_msb fits, Nat.size_eq_zero]

theorem divqr_ok (pos : b ≠ 0) (less : b < a) :
    divqrVect l (stored l a).value (stored l b).value = .ok (stored l (a / b), stored l (a % b)) :=
  divqrVect_stored pos (stored_length_mono less.le)

theorem divqr_zero (u : List ℕ) : divqrVect l u (stored l 0).value = .error .divisionByZero := rfl

/-! ### Down -/

theorem northLoop_ok (down : Descends a b qs) (less : b < a) (fits : a.size < 2 ^ 32) (before : List Ubint) {fuel : ℕ}
    (enough : b < fuel) : northLoop l fuel (stored l a) (stored l b) before = some (.ok (before ++ qs.map (stored l))) := by
  obtain ⟨fuel, rfl⟩ : ∃ f, fuel = f + 1 := ⟨fuel - 1, by omega⟩
  induction down generalizing fuel before with
  | unit pos =>
    rw [northLoop, if_pos ((msb_eq_one_iff (by decide)).mpr rfl), List.map_nil, List.append_nil]
  | @divide a b qs more rest ih =>
    have fitsB := fits_of_le less.le fits
    have smaller : a % b < b := Nat.mod_lt a (by omega)
    have next := ih smaller fitsB (before ++ [stored l (a / b)]) (fuel - 1) (by omega)
    rw [northLoop, if_neg (mt (msb_eq_one_iff fitsB).mp more.ne'), divqr_ok (by omega) less]
    dsimp only
    rw [show fuel = fuel - 1 + 1 by omega, next, List.append_assoc, List.map_cons, List.singleton_append]

/-- A common factor leads the loop to a division by zero. -/
theorem northLoop_common (pos : 0 < b) (less : b < a) (common : ¬ a.Coprime b) (fits : a.size < 2 ^ 32) (before : List Ubint)
    {fuel : ℕ} (enough : b + 1 < fuel) : northLoop l fuel (stored l a) (stored l b) before = some (.error .divisionByZero) := by
  induction b using Nat.strong_induction_on generalizing a before fuel with
  | _ b ih =>
    obtain ⟨fuel, rfl⟩ : ∃ f, fuel = f + 2 := ⟨fuel - 2, by omega⟩
    have fitsB := fits_of_le less.le fits
    have more : b ≠ 1 := by
      rintro rfl
      exact common (Nat.coprime_one_right a)
    have smaller : a % b < b := Nat.mod_lt a pos
    have next : ¬ b.Coprime (a % b) := by
      rwa [Nat.coprime_comm, Nat.Coprime, ← Nat.gcd_rec, Nat.gcd_comm]
    rw [northLoop, if_neg (mt (msb_eq_one_iff fitsB).mp more), divqr_ok pos.ne' less]
    dsimp only
    by_cases none : a % b = 0
    · rw [none, northLoop, if_neg (mt (msb_eq_one_iff (by decide)).mp (by decide)), divqr_zero]
    · exact ih _ smaller (Nat.pos_of_ne_zero none) smaller next fitsB _ (by omega)

/-! ### Up -/

theorem south_climb (down : Descends a b qs) (le : b ≤ a) (fits : a.size < 2 ^ 32) :
    (qs.map (stored l)).reverse.foldl (southStep l) (zero, ofWord 1) = (stored l (climb qs).1, stored l (climb qs).2) := by
  induction down with
  | unit pos =>
    rw [List.map_nil, List.reverse_nil, List.foldl_nil, climb, stored_zero, stored_ofWord (one_lt_radix l)]
  | @divide a b qs more rest ih =>
    have fitsB := fits_of_le le fits
    obtain ⟨high, low⟩ := rest.climb_le
    have smaller : a % b < b := Nat.mod_lt a (by omega)
    have product : a / b * (climb qs).2 ≤ a := (Nat.mul_le_mul_left _ high).trans (Nat.div_mul_le_self a b)
    rw [List.map_cons, List.reverse_cons, List.foldl_append, ih smaller.le fitsB]
    simp only [List.foldl_cons, List.foldl_nil, southStep, climb]
    rw [mul_stored (fits_of_le (Nat.div_le_self a b) fits) (fits_of_le high fitsB) (fits_of_le product fits),
      add_stored (fits_of_le product fits) (fits_of_le (low.trans smaller.le) fitsB)]

theorem south_ok (down : Descends m s qs) (more : 1 < m) (less : s < m) (fits : m.size < 2 ^ 32) :
    ∃ u, south l (stored l m) (qs.map (stored l)) = .ok (stored l u) ∧ u < m ∧ u * s ≡ 1 [MOD m] := by
  obtain ⟨below, some, residue⟩ := down.inverse more
  have parity : (qs.map (stored l)).length &&& 0x1 = qs.length % 2 := by rw [List.length_map, Nat.and_one_is_mod]
  unfold south
  rw [south_climb down less.le fits, parity]
  dsimp only
  by_cases odd : qs.length % 2 = 0
  · refine ⟨(climb qs).2, by simp [odd], below, ?_⟩
    rw [(Nat.even_iff.mpr odd).neg_one_pow] at residue
    exact_mod_cast residue
  · refine ⟨m - (climb qs).2, ?_, by omega, ?_⟩
    · rw [if_pos odd, sub_stored fits (fits_of_le below.le fits)]
    · rw [(Nat.odd_iff.mpr (by omega)).neg_one_pow] at residue
      have opposite := residue.neg
      rw [neg_neg] at opposite
      apply Int.natCast_modEq_iff.mp
      push_cast [below.le]
      refine Int.ModEq.trans ?_ opposite
      exact Int.modEq_iff_dvd.mpr ⟨-s, by ring⟩

/-! ### All of it -/

theorem reduced_ok (fitsA : a.size < 2 ^ 32) (fits : m.size < 2 ^ 32) (positive : m ≠ 0) :
    (do if (← compare (stored l a) (stored l m)) ≥ 0 then mod l (stored l a) (stored l m) else return stored l a) =
      Except.ok (ε := Fault) (stored l (a % m)) := by
  rw [compare_stored fitsA fits]
  dsimp only [bind, Except.bind, pure, Except.pure]
  split
  · exact mod_stored fits positive fitsA
  · rename_i less
    rw [order_nonneg, not_le] at less
    rw [Nat.mod_eq_of_lt less]

/-- The run ends, with this. -/
def Ends {β : Type} (run : ℕ → Option β) (r : β) : Prop := ∃ steps, ∀ fuel ≥ steps, run fuel = some r

theorem Ends.unique {β : Type} {run : ℕ → Option β} {r t : β} (hr : Ends run r) (ht : Ends run t) : r = t := by
  obtain ⟨i, hi⟩ := hr
  obtain ⟨j, hj⟩ := ht
  exact Option.some.inj ((hi (max i j) (le_max_left i j)).symm.trans (hj (max i j) (le_max_right i j)))

/-- An inverse below the modulus is returned, or the absence of one is reported. -/
structure InvertsOrRefuses (l : LimbT) (a m : Ubint) : Prop where
  inverts : (number l a).Coprime (number l m) → ∃ u, Ends (fun fuel => modInverse l fuel a m) (.ok u) ∧ Normalised l u ∧
    number l u < number l m ∧ number l u * number l a ≡ 1 [MOD number l m]
  refuses : ¬ (number l a).Coprime (number l m) → ∃ msg, Ends (fun fuel => modInverse l fuel a m) (.error (.mathError msg))

/-- What `ModInverse` comes to on the remainder `s` of its argument. -/
inductive Comes (l : LimbT) (a m : ℕ) : Except Fault Ubint → Prop
  | zero (none : a = 0) : Comes l a m (.error (.mathError "Zero has no inverse"))
  | inverse {u : ℕ} (coprime : a.Coprime m) (below : u < m) (inverse : u * a ≡ 1 [MOD m]) : Comes l a m (.ok (stored l u))
  | refusal (msg : String) (some : a ≠ 0) (divides : a % m ∣ m) (common : ¬ a.Coprime m) : Comes l a m (.error (.mathError msg))
  | division (some : a ≠ 0) (apart : ¬ a % m ∣ m) (common : ¬ a.Coprime m) : Comes l a m (.error .divisionByZero)

theorem coprime_mod (a m : ℕ) : (a % m).Coprime m ↔ a.Coprime m := by
  rw [Nat.Coprime, ← Nat.gcd_rec, Nat.gcd_comm]

theorem noInverse_stored (fitsA : a.size < 2 ^ 32) (fits : m.size < 2 ^ 32) :
    ∃ msg, noInverse l (stored l a) (stored l m) = .error (.mathError msg) := by
  unfold noInverse
  rw [toString_stored fitsA, toString_stored fits]
  exact ⟨_, rfl⟩

theorem modInverseFrom_comes (more : 1 < a % m) (positive : 1 < m) (fitsA : a.size < 2 ^ 32) (fits : m.size < 2 ^ 32) :
    ∃ r, Ends (fun fuel => modInverseFrom l fuel (stored l a) (stored l (a % m)) (stored l m)) r ∧ Comes l a m r := by
  have some : a ≠ 0 := by
    rintro rfl
    simp at more
  have less : a % m < m := Nat.mod_lt a (by omega)
  have fitsS := fits_of_le less.le fits
  have smaller : m % (a % m) < a % m := Nat.mod_lt m (by omega)
  have fitsR := fits_of_le smaller.le fitsS
  unfold modInverseFrom
  rw [divqr_ok (by omega) less]
  dsimp only
  by_cases none : m % (a % m) = 0
  · have divides : a % m ∣ m := Nat.dvd_of_mod_eq_zero none
    have common : ¬ a.Coprime m := by
      rw [← coprime_mod]
      intro coprime
      exact more.ne' (Nat.Coprime.eq_one_of_dvd coprime divides)
    obtain ⟨msg, thrown⟩ := noInverse_stored (l := l) fitsA fits
    refine ⟨_, ⟨0, fun fuel _ => ?_⟩, .refusal msg some divides common⟩
    dsimp only
    rw [if_pos ((msb_eq_zero_iff fitsR).mpr none), thrown]
  · have apart : ¬ a % m ∣ m := fun divides => none (Nat.mod_eq_zero_of_dvd divides)
    have rest : (a % m).Coprime (m % (a % m)) ↔ a.Coprime m := by
      rw [Nat.coprime_comm, coprime_mod, Nat.coprime_comm, coprime_mod]
    simp only [if_neg (mt (msb_eq_zero_iff (l := l) fitsR).mp none)]
    by_cases coprime : a.Coprime m
    · obtain ⟨qs, down⟩ := exists_descends (Nat.pos_of_ne_zero none) smaller (rest.mpr coprime)
      obtain ⟨u, climbed, below, inverse⟩ := south_ok (l := l) (Descends.divide more down) positive less fits
      refine ⟨.ok (stored l u), ⟨m % (a % m) + 1, fun fuel enough => ?_⟩, .inverse coprime below ?_⟩
      · dsimp only
        rw [northLoop_ok down smaller fitsS _ enough, Option.map_some]
        exact congrArg Option.some climbed
      · exact ((Nat.mod_modEq a m).mul_left u).symm.trans inverse
    · refine ⟨.error .divisionByZero, ⟨m % (a % m) + 2, fun fuel enough => ?_⟩, .division some apart coprime⟩
      dsimp only
      rw [northLoop_common (Nat.pos_of_ne_zero none) smaller (mt rest.mp coprime) fitsS _ enough]
      rfl

theorem modInverse_comes (positive : 1 < m) (fitsA : a.size < 2 ^ 32) (fits : m.size < 2 ^ 32) :
    ∃ r, Ends (fun fuel => modInverse l fuel (stored l a) (stored l m)) r ∧ Comes l a m r := by
  unfold modInverse
  simp only [reduced_ok (l := l) fitsA fits (show m ≠ 0 by omega), msb_eq_zero_iff fitsA]
  by_cases none : a = 0
  · exact ⟨_, ⟨0, fun fuel _ => if_pos none⟩, .zero none⟩
  simp only [if_neg none, msb_eq_one_iff (l := l) (fits_of_le (Nat.mod_lt a (show 0 < m by omega)).le fits)]
  rcases Nat.lt_trichotomy (a % m) 1 with low | one | more
  · have zero : a % m = 0 := by omega
    simp only [zero, if_neg (show ¬ (0 : ℕ) = 1 by decide)]
    have divides : m ∣ a := Nat.dvd_of_mod_eq_zero zero
    refine ⟨.error .divisionByZero, ⟨0, fun fuel _ => rfl⟩, .division none ?_ ?_⟩
    · rw [zero, zero_dvd_iff]
      omega
    · intro coprime
      have unit := Nat.Coprime.eq_one_of_dvd coprime.symm divides
      omega
  · simp only [one, if_true]
    refine ⟨.ok (stored l 1), ⟨0, fun fuel _ => rfl⟩, .inverse ?_ positive ?_⟩
    · rw [← coprime_mod, one]
      exact Nat.coprime_one_left m
    · rw [Nat.ModEq, one_mul, one, Nat.mod_eq_of_lt positive]
  · simp only [if_neg more.ne']
    exact modInverseFrom_comes more positive fitsA fits

theorem inverts_or_refuses_iff {a m : Ubint} (ha : Normalised l a) (hm : Normalised l m) (more : 2 ≤ number l m) :
    InvertsOrRefuses l a m ↔
      (number l a).Coprime (number l m) ∨ number l a = 0 ∨ number l a % number l m ∣ number l m := by
  obtain ⟨r, ends, comes⟩ := modInverse_comes (l := l) more ha.fits hm.fits
  rw [← ha.eq_stored, ← hm.eq_stored] at ends
  constructor
  · intro inverts
    cases comes with
    | zero none => exact .inr (.inl none)
    | inverse coprime _ _ => exact .inl coprime
    | refusal _ _ divides _ => exact .inr (.inr divides)
    | division _ _ common =>
      obtain ⟨msg, thrown⟩ := inverts.refuses common
      cases ends.unique thrown
  · intro sound
    cases comes with
    | zero none =>
      refine ⟨fun coprime => ?_, fun _ => ⟨_, ends⟩⟩
      rw [none, Nat.coprime_zero_left] at coprime
      omega
    | @inverse u coprime below inverse =>
      refine ⟨fun _ => ⟨_, ends, stored_normalised (fits_of_le below.le hm.fits), ?_, ?_⟩, fun common => absurd coprime common⟩
      · rwa [number_stored]
      · rwa [number_stored]
    | refusal msg _ _ common => exact ⟨fun coprime => absurd coprime common, fun _ => ⟨msg, ends⟩⟩
    | division some apart common =>
      rcases sound with coprime | none | divides
      · exact absurd coprime common
      · exact absurd none some
      · exact absurd divides apart

/-- Inverses of words and of big integers. -/
theorem inverses_iff (w : NativeSize) (l : LimbT) :
    (∀ v m : ℕ, 2 ≤ m → m < 2 ^ (w.bits - 1) →
      (NativeInteger.InvertsOrRefuses w v m ↔ v.Coprime m ∨ m ∣ v)) ∧
    ∀ a m : Ubint, Normalised l a → Normalised l m → 2 ≤ number l m →
      (InvertsOrRefuses l a m ↔ (number l a).Coprime (number l m) ∨ number l a = 0 ∨ number l a % number l m ∣ number l m) :=
  ⟨fun _ _ h2 hm => NativeInteger.inverts_or_refuses_iff h2 hm, fun _ _ ha hm more => inverts_or_refuses_iff ha hm more⟩

theorem three_modulo_seven :
    NativeInteger.InvertsOrRefuses .w64 3 7 ∧ InvertsOrRefuses .uint64 ⟨2, [3]⟩ ⟨3, [7]⟩ := by
  have three : Normalised .uint64 ⟨2, [3]⟩ := stored_normalised (l := .uint64) (n := 3) (by decide)
  have seven : Normalised .uint64 ⟨3, [7]⟩ := stored_normalised (l := .uint64) (n := 7) (by decide)
  exact ⟨((inverses_iff .w64 .uint64).1 3 7 (by decide) (by decide)).mpr (.inl (by decide)),
    ((inverses_iff .w64 .uint64).2 ⟨2, [3]⟩ ⟨3, [7]⟩ three seven (by decide)).mpr (.inl (by decide))⟩

/-- Two and four have a common factor, which the loop finds by dividing by zero. -/
theorem two_modulo_four : ¬ NativeInteger.InvertsOrRefuses .w64 2 4 := by
  intro inverts
  obtain ⟨msg, refused⟩ := inverts.refuses (by decide)
  have divides : NativeInteger.modInverse .w64 2 4 = .error .divisionByZero := by decide +kernel
  rw [divides] at refused
  cases refused

end MultiKeyFHE.Ubint
