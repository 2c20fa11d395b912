import MultiKeyFHE.Scheme.MNTRU
import MultiKeyFHE.Params.UniEnc
import MultiKeyFHE.Library.Draws

/-!
# Published key material of the multi-key schemes

`KeySwitchGen` and `KeySwitchGen2` of `mntru-pke.cpp` and the reference vector of `UniEncCryptoParams`, as programs
over the stream of their Gaussian generator. A fill constructor makes one draw and copies it into every row, so
two rows of a switching key differ by a multiple of a row of `F_inv` that no noise hides
(`keySwitchGen_difference`). `published_rows_own_noise_iff` says for which sizes each row has a draw of its own.
-/

namespace MultiKeyFHE
open NativeInteger NativeVector Draws Sampler

namespace MNTRU

/-- A draw of `GenerateVector(n, qKS)`. -/
abbrev NoiseVector (n qKS : ℕ) : Type := Fin n → Fin qKS

/-- A row of the switching key, next to the noise vector that `E` held for it. -/
structure DrawnRow (n qKS : ℕ) where
  noise : NoiseVector n qKS
  row : Fin n → ℕ

section Generate
variable (w : NativeSize) {k n N qKS : ℕ}

/-- The entry `s[u][i]` where the inner loop starts: the first is taken as it is, the others are added to zero. -/
def firstCoef (qKS : ℕ) (s : Fin N → ℕ) (i : Fin N) : ℕ := if i.val = 0 then s i else modAdd w 0 (s i) qKS

/-- `coef_w_pwr`, which row `i * digitCount + j` adds to the first entry of its noise. -/
def gadgetTerm (qKS baseKS : ℕ) {digitCount : ℕ} (s : Fin N → ℕ) (i : Fin (N * digitCount)) : ℕ :=
  mulIterate w baseKS (firstCoef w qKS s i.divNat) i.modNat

def addGadget [NeZero n] (qKS term : ℕ) (E : Fin n → ℕ) : Fin n → ℕ :=
  fun l => if l = 0 then modAdd w (E l) term qKS else E l

/-- The arithmetic of `long`. -/
def long (x : ℤ) : ℤ := x.bmod (2 ^ 64)

/-- The columns in the order of the inner loops: blocks of four, and then the remaining ones. -/
def columnIndices (n : ℕ) : List ℕ :=
  (List.range (n / 4)).flatMap (fun b => [4 * b, 4 * b + 1, 4 * b + 2, 4 * b + 3]) ++
    (List.range (n % 4)).map (n / 4 * 4 + ·)

theorem blocks_eq_range (b : ℕ) :
    (List.range b).flatMap (fun b => [4 * b, 4 * b + 1, 4 * b + 2, 4 * b + 3]) = List.range (b * 4) := by
  induction b with
  | zero => rfl
  | succ b ih =>
    rw [List.range_succ, List.flatMap_append, ih, add_mul, List.range_add, mul_comm b 4]
    rfl

theorem columnIndices_eq (n : ℕ) : columnIndices n = List.range n := by
  rw [columnIndices, blocks_eq_range, ← List.range_add, Nat.div_add_mod' n 4]

def columns (n : ℕ) : List (Fin n) :=
  (columnIndices n).pmap Fin.mk fun _ member => List.mem_range.mp (columnIndices_eq n ▸ member)

/-- One row of the product with `F_inv`: `k_row` after the loop over `l`, which reads its two factors centered. -/
def rowProduct (qKS : ℕ) (g_row : Fin n → ℕ) (F_inv : Fin n → Fin n → ℕ) : Fin n → ℤ :=
  (List.finRange n).foldl (fun k_row l =>
    (columns n).foldl (fun k_row j =>
      Function.update k_row j (long (k_row j + long (centered qKS (g_row l) * centered qKS (F_inv l j))))) k_row)
    fun _ => 0

/-- `mod_q`: the remainder goes through an `int32_t`. -/
def modQ (q : ℕ) (input : ℤ) : ℕ :=
  let coef := (input.tmod q).bmod (2 ^ 32)
  let coef := if coef < 0 then (coef + q).bmod (2 ^ 32) else coef
  (coef % 2 ^ w.bits).toNat

/-- `E[i]` before the product: the noise with the multiple of the switched ring key in front. -/
def gadgetRow [NeZero n] (qKS QN baseKS : ℕ) {digitCount : ℕ} (skN : Fin N → ℕ) (E : Fin n → ℕ) (i : Fin (N * digitCount)) :
    Fin n → ℕ :=
  let s := fun i => switchModulus w QN qKS (skN i)
  addGadget w qKS (gadgetTerm w qKS baseKS s i) E

/-- Row `i` of the key of a party, for the noise `E`. -/
def keyRow [NeZero n] (qKS QN baseKS : ℕ) {digitCount : ℕ} (F_inv : Fin n → Fin n → ℕ) (skN : Fin N → ℕ) (E : Fin n → ℕ)
    (i : Fin (N * digitCount)) (j : Fin n) : ℕ :=
  modQ w qKS (rowProduct qKS (gadgetRow w qKS QN baseKS skN E i) F_inv j)

/-- The loop body of one party up to `mod_q`, with the fill constructor of `E`. -/
def partyRows [NeZero n] (QN baseKS rowsPerEntry : ℕ) (F_inv : Fin n → Fin n → ℕ) (skN : Fin N → ℕ) :
    Sampler (NoiseVector n qKS) (Fin (N * rowsPerEntry) → DrawnRow n qKS) := do
  let E ← fill (N * rowsPerEntry) draw
  return fun i => { noise := E i, row := keyRow w qKS QN baseKS F_inv skN (fun l => E i l) i }

variable (plat : Platform)

/-- `KeySwitchGen` for the ring keys `skN` modulo `QN`. -/
def keySwitchGen [NeZero n] (QN baseKS : ℕ) (sk : MNTRUPrivateKey k n) (skN : Fin k → Fin N → ℕ) :
    Sampler (NoiseVector n qKS) (Fin k → Fin (N * plat.digitCount qKS baseKS) → DrawnRow n qKS) :=
  forEach k fun u => partyRows w QN baseKS (plat.digitCount qKS baseKS) (sk.F_inv u) (skN u)

/-- The rows of a `KSK2`: each digit has its own multiple. -/
structure DrawnMultiples (n qKS : ℕ) where
  noise : NoiseVector n qKS
  multiple : ℕ → Fin n → ℕ

def multiples (r : DrawnRow n qKS) : DrawnMultiples n qKS :=
  { noise := r.noise, multiple := fun digit l => modMulFast (r.row l) digit qKS }

/-- `KeySwitchGen2`: the same rows, each multiplied by every digit. -/
def keySwitchGen2 [NeZero n] (QN baseKS : ℕ) (sk : MNTRUPrivateKey k n) (skN : Fin k → Fin N → ℕ) :
    Sampler (NoiseVector n qKS) (Fin k → Fin (N * plat.digitCount qKS baseKS) → DrawnMultiples n qKS) :=
  forEach k fun u =>
    (multiples ∘ ·) <$> partyRows w QN baseKS (plat.digitCount qKS baseKS) (sk.F_inv u) (skN u)

end Generate

/-- Rows with randomness of their own: no two share a noise vector, and no difference of two rows is, for all
draws, the same multiple of a row of `F_inv`. -/
structure OwnNoise {k n qKS rows : ℕ} (F_inv : Fin k → Fin n → Fin n → ℕ)
    (noise : (ℕ → NoiseVector n qKS) → Fin k → Fin rows → NoiseVector n qKS)
    (row : (ℕ → NoiseVector n qKS) → Fin k → Fin rows → Fin n → ℕ) : Prop where
  draws : OwnDraws fun stream (x : Fin k × Fin rows) => noise stream x.1 x.2
  differences : ∀ u i i', i ≠ i' → ∀ l (c : ℤ),
    ¬ ∀ stream j, (row stream u i j : ℤ) - row stream u i' j ≡ c * F_inv u l j [ZMOD qKS]

section Rows
variable {w : NativeSize} {plat : Platform} {k n N qKS QN baseKS : ℕ} [NeZero n]
variable {sk : MNTRUPrivateKey k n} {skN : Fin k → Fin N → ℕ}

theorem partyRows_asks (rowsPerEntry : ℕ) (F_inv : Fin n → Fin n → ℕ) (s : Fin N → ℕ) :
    Asks (partyRows w QN baseKS rowsPerEntry F_inv s : Sampler (NoiseVector n qKS) _) 1 := fun _ _ => rfl

/-- All rows of party `u` hold the draw number `u`. -/
theorem keySwitchGen_noise (stream : ℕ → NoiseVector n qKS) (u : Fin k) (i : Fin (N * plat.digitCount qKS baseKS)) :
    (value (keySwitchGen w plat QN baseKS sk skN) stream u i).noise = stream u := by
  rw [keySwitchGen, forEach_value fun _ => partyRows_asks _ _ _, mul_one]
  rfl

theorem keySwitchGen2_noise (stream : ℕ → NoiseVector n qKS) (u : Fin k) (i : Fin (N * plat.digitCount qKS baseKS)) :
    (value (keySwitchGen2 w plat QN baseKS sk skN) stream u i).noise = stream u := by
  rw [keySwitchGen2, forEach_value fun _ => (partyRows_asks _ _ _).map _, mul_one]
  rfl

end Rows

section OwnNoise
variable {k n qKS rows : ℕ} {F_inv : Fin k → Fin n → Fin n → ℕ}
variable {noise : (ℕ → NoiseVector n qKS) → Fin k → Fin rows → NoiseVector n qKS}
variable {row : (ℕ → NoiseVector n qKS) → Fin k → Fin rows → Fin n → ℕ}

theorem ownNoise_of_single (shared : ∀ stream u i, noise stream u i = stream u) (single : k = 0 ∨ rows ≤ 1) :
    OwnNoise F_inv noise row := by
  have alone : ∀ (_ : Fin k) (i i' : Fin rows), i = i' := by
    intro u i i'
    have := u.isLt
    have := i.isLt
    have := i'.isLt
    omega
  constructor
  · refine ⟨fun x => x.1.val, ?_, fun stream x => shared stream x.1 x.2⟩
    rintro ⟨u, i⟩ ⟨u', i'⟩ same
    exact Prod.ext (Fin.ext same) (alone u i i')
  · intro u i i' differ
    exact absurd (alone u i i') differ

theorem not_ownNoise_of_shared [NeZero n] (shared : ∀ stream u i, noise stream u i = stream u) (parties : 0 < k)
    (many : 1 < rows) : ¬ OwnNoise F_inv noise row := by
  intro own
  have differ : (⟨0, by omega⟩ : Fin rows) ≠ ⟨1, many⟩ := by simp
  rcases Nat.lt_trichotomy qKS 1 with none | one | large
  · -- There is no vector to draw, so a statement about all streams says nothing.
    refine own.differences ⟨0, parties⟩ _ _ differ 0 0 fun stream => ?_
    have := (stream 0 0).isLt
    omega
  · refine own.differences ⟨0, parties⟩ _ _ differ 0 0 fun stream j => ?_
    rw [one]
    exact Int.modEq_one
  · obtain ⟨q, rfl⟩ := Nat.exists_eq_add_of_lt large
    have read : ∀ stream (x : Fin k × Fin rows), noise stream x.1 x.2 = stream x.1.val :=
      fun stream x => shared stream x.1 x.2
    have inj := (ownDraws_iff read).mp own.draws
    have same : ((⟨0, parties⟩, ⟨0, by omega⟩) : Fin k × Fin rows) = (⟨0, parties⟩, ⟨1, many⟩) := inj rfl
    exact differ (congrArg Prod.snd same)

theorem ownNoise_iff [NeZero n] (shared : ∀ stream u i, noise stream u i = stream u) :
    OwnNoise F_inv noise row ↔ k = 0 ∨ rows ≤ 1 := by
  constructor
  · intro own
    by_contra h
    exact not_ownNoise_of_shared shared (by omega) (by omega) own
  · exact ownNoise_of_single shared

end OwnNoise

/-! ### What two rows reveal -/

section Difference
variable {w : NativeSize} {k n N qKS QN baseKS : ℕ}

/-- What `int32_t` holds without loss: the remainder that `mod_q` takes, and the remainder it stores. -/
structure FitsInt32 (q : ℕ) (x : ℤ) : Prop where
  low : -2 ^ 31 ≤ x.tmod q
  high : x % q < 2 ^ 31

theorem tmod_eq (x : ℤ) {q : ℕ} (pos : 0 < q) : x.tmod q = x % q ∨ x.tmod q = x % q - q ∧ x.tmod q < 0 := by
  have same := Int.mul_tdiv_add_tmod x q
  have low := Int.lt_tmod_of_pos x (show (0 : ℤ) < q by omega)
  have high := Int.tmod_lt_of_pos x (show (0 : ℤ) < q by omega)
  rcases lt_or_ge (x.tmod q) 0 with negative | nonneg
  · right
    refine ⟨?_, negative⟩
    have shifted : x % q = x.tmod q + q := by
      conv_lhs => rw [← same]
      rw [Int.mul_add_emod_self_left, ← Int.add_emod_right, Int.emod_eq_of_lt (by omega) (by omega)]
    omega
  · left
    conv_rhs => rw [← same]
    rw [Int.mul_add_emod_self_left, Int.emod_eq_of_lt nonneg high]

theorem fitsInt32_of_le {q : ℕ} (pos : 0 < q) (small : q ≤ 2 ^ 31) (x : ℤ) : FitsInt32 q x := by
  have low := Int.lt_tmod_of_pos x (show (0 : ℤ) < q by omega)
  have high := Int.emod_lt_of_pos x (show (0 : ℤ) < q by omega)
  exact ⟨by omega, by omega⟩

theorem modQ_eq {q : ℕ} (pos : 0 < q) (word : q ≤ 2 ^ w.bits) {x : ℤ} (fits : FitsInt32 q x) : (modQ w q x : ℤ) = x % q := by
  obtain ⟨low, high⟩ := fits
  have nonneg := Int.emod_nonneg x (show (q : ℤ) ≠ 0 by omega)
  have below := Int.emod_lt_of_pos x (show (0 : ℤ) < q by omega)
  have word' : (q : ℤ) ≤ 2 ^ w.bits := by exact_mod_cast word
  have exact : ∀ y : ℤ, -2 ^ 31 ≤ y → y < 2 ^ 31 → y.bmod (2 ^ 32) = y := by
    intro y _ _
    exact Int.bmod_eq_of_le (by norm_num; omega) (by norm_num; omega)
  simp only [modQ]
  rcases tmod_eq x pos with same | ⟨same, negative⟩
  · rw [exact _ low (by omega), if_neg (by omega), same, Int.emod_eq_of_lt nonneg (by omega), Int.toNat_of_nonneg nonneg]
  · rw [exact _ low (by omega), if_pos negative, show x.tmod q + q = x % q by omega, exact _ (by omega) high,
      Int.emod_eq_of_lt nonneg (by omega), Int.toNat_of_nonneg nonneg]

theorem modQ_lt (q : ℕ) (x : ℤ) : modQ w q x < 2 ^ w.bits := by
  have positive : (0 : ℤ) < 2 ^ w.bits := by positivity
  have below := Int.emod_lt_of_pos (if (x.tmod q).bmod (2 ^ 32) < 0 then ((x.tmod q).bmod (2 ^ 32) + q).bmod (2 ^ 32)
    else (x.tmod q).bmod (2 ^ 32)) positive
  have nonneg := Int.emod_nonneg (if (x.tmod q).bmod (2 ^ 32) < 0 then ((x.tmod q).bmod (2 ^ 32) + q).bmod (2 ^ 32)
    else (x.tmod q).bmod (2 ^ 32)) positive.ne'
  exact (Int.toNat_lt nonneg).mpr (by exact_mod_cast below)

theorem columns_eq (n : ℕ) : columns n = List.finRange n := by
  refine List.map_injective_iff.mpr Fin.val_injective ?_
  rw [columns, List.map_pmap, List.pmap_eq_map, columnIndices_eq, List.map_id', List.map_coe_finRange_eq_range]

theorem foldl_update_columns (f : Fin n → ℤ → ℤ) (row : Fin n → ℤ) :
    (columns n).foldl (fun row j => Function.update row j (f j (row j))) row = fun j => f j (row j) := by
  have visited : ∀ (l : List (Fin n)) (row : Fin n → ℤ), l.Nodup →
      l.foldl (fun row j => Function.update row j (f j (row j))) row = fun j => if j ∈ l then f j (row j) else row j := by
    intro l
    induction l with
    | nil =>
      intro row _
      simp
    | cons x rest ih =>
      intro row nodup
      obtain ⟨absent, nodup⟩ := List.nodup_cons.mp nodup
      rw [List.foldl_cons, ih _ nodup]
      funext j
      by_cases same : j = x
      · rw [same, if_neg absent, if_pos List.mem_cons_self, Function.update_self]
      · simp only [List.mem_cons, same, false_or, Function.update_of_ne same]
  rw [columns_eq, visited _ row (List.nodup_finRange n)]
  simp

/-- The row product before any narrowing. -/
def exactProduct (qKS : ℕ) (g_row : Fin n → ℕ) (F_inv : Fin n → Fin n → ℕ) (j : Fin n) : ℤ :=
  ∑ l, centered qKS (g_row l) * centered qKS (F_inv l j)

theorem long_add (x y : ℤ) : long (long x + long y) = long (x + y) := by
  rw [long, long, long, long, Int.add_bmod_bmod, Int.bmod_add_bmod]

/-- However often `long` wraps on the way, the row holds the wrapped sum. -/
theorem rowProduct_eq_long (g_row : Fin n → ℕ) (F_inv : Fin n → Fin n → ℕ) (j : Fin n) :
    rowProduct qKS g_row F_inv j = long (exactProduct qKS g_row F_inv j) := by
  have loop : ∀ (l : List (Fin n)) (row : Fin n → ℤ) (sum : ℤ), row j = long sum → (l.foldl (fun k_row l =>
      (columns n).foldl (fun k_row j => Function.update k_row j
        (long (k_row j + long (centered qKS (g_row l) * centered qKS (F_inv l j))))) k_row) row) j =
      long (sum + (l.map fun l => centered qKS (g_row l) * centered qKS (F_inv l j)).sum) := by
    intro l
    induction l with
    | nil =>
      intro row sum start
      rw [List.foldl_nil, List.map_nil, List.sum_nil, add_zero, start]
    | cons l rest ih =>
      intro row sum start
      rw [List.foldl_cons, List.map_cons, List.sum_cons, ← add_assoc]
      refine ih _ _ ?_
      rw [foldl_update_columns fun j x => long (x + long (centered qKS (g_row l) * centered qKS (F_inv l j)))]
      dsimp only
      rw [start, long_add]
  rw [rowProduct, loop _ _ 0 rfl, zero_add, exactProduct, Fin.sum_univ_def]

def FitsLong (x : ℤ) : Prop := -2 ^ 63 ≤ x ∧ x < 2 ^ 63

theorem long_eq {x : ℤ} (fits : FitsLong x) : long x = x :=
  Int.bmod_eq_of_le (by have := fits.1; norm_num; omega) (by have := fits.2; norm_num; omega)

theorem exactProduct_modEq (g_row : Fin n → ℕ) (F_inv : Fin n → Fin n → ℕ) (j : Fin n) :
    exactProduct qKS g_row F_inv j ≡ ∑ l, (g_row l : ℤ) * F_inv l j [ZMOD qKS] :=
  Int.ModEq.sum fun _ _ => (centered_modEq _ _).mul (centered_modEq _ _)

theorem addGadget_modEq [NeZero n] (pos : 0 < qKS) (word : 2 * qKS ≤ 2 ^ w.bits) (term : ℕ) (E : Fin n → ℕ) (l : Fin n) :
    (addGadget w qKS term E l : ℤ) ≡ E l + (if l = 0 then (term : ℤ) else 0) [ZMOD qKS] := by
  unfold addGadget
  split
  · rw [modAdd_eq pos word, Int.natCast_mod, Nat.cast_add]
    exact Int.mod_modEq _ _
  · rw [add_zero]

/-- The exact entries of a row fit a `long`, and their remainders an `int32_t`. -/
def RowFits (qKS : ℕ) (g_row : Fin n → ℕ) (F_inv : Fin n → Fin n → ℕ) : Prop :=
  ∀ j, FitsLong (exactProduct qKS g_row F_inv j) ∧ FitsInt32 qKS (exactProduct qKS g_row F_inv j)

theorem abs_centered_le {x : ℕ} (below : x < qKS) : |centered qKS x| ≤ (qKS / 2 : ℕ) := by
  unfold centered
  split <;> rw [abs_le] <;> constructor <;> omega

theorem rowFits_of_room (pos : 0 < qKS) (small : qKS ≤ 2 ^ 31) (room : n * (qKS / 2) ^ 2 < 2 ^ 63) {g_row : Fin n → ℕ}
    (hg : ∀ l, g_row l < qKS) {F_inv : Fin n → Fin n → ℕ} (hF : ∀ l j, F_inv l j < qKS) : RowFits qKS g_row F_inv := by
  intro j
  refine ⟨?_, fitsInt32_of_le pos small _⟩
  have bound : |exactProduct qKS g_row F_inv j| ≤ (n * (qKS / 2) ^ 2 : ℕ) := by
    calc |exactProduct qKS g_row F_inv j|
        ≤ ∑ l, |centered qKS (g_row l) * centered qKS (F_inv l j)| := Finset.abs_sum_le_sum_abs _ _
      _ ≤ ∑ _l : Fin n, ((qKS / 2 : ℕ) : ℤ) ^ 2 := Finset.sum_le_sum fun l _ => by
        rw [abs_mul, pow_two]
        exact mul_le_mul (abs_centered_le (hg l)) (abs_centered_le (hF l j)) (abs_nonneg _) (by positivity)
      _ = (n * (qKS / 2) ^ 2 : ℕ) := by simp
  have below : ((n * (qKS / 2) ^ 2 : ℕ) : ℤ) < 2 ^ 63 := by exact_mod_cast room
  obtain ⟨low, high⟩ := abs_le.mp bound
  exact ⟨by omega, by omega⟩

section Row
variable [NeZero n] {digitCount : ℕ} {F_inv : Fin n → Fin n → ℕ} {skN : Fin N → ℕ} {E : Fin n → ℕ}
  {i : Fin (N * digitCount)}

theorem keyRow_eq (pos : 0 < qKS) (word : qKS ≤ 2 ^ w.bits) (fits : RowFits qKS (gadgetRow w qKS QN baseKS skN E i) F_inv)
    (j : Fin n) :
    (keyRow w qKS QN baseKS F_inv skN E i j : ℤ) = exactProduct qKS (gadgetRow w qKS QN baseKS skN E i) F_inv j % qKS := by
  rw [keyRow, rowProduct_eq_long, long_eq (fits j).1]
  exact modQ_eq pos word (fits j).2

theorem keyRow_modEq (pos : 0 < qKS) (word : 2 * qKS ≤ 2 ^ w.bits)
    (fits : RowFits qKS (gadgetRow w qKS QN baseKS skN E i) F_inv) (j : Fin n) :
    (keyRow w qKS QN baseKS F_inv skN E i j : ℤ) ≡ (∑ l, (E l : ℤ) * F_inv l j) +
      gadgetTerm w qKS baseKS (fun i => switchModulus w QN qKS (skN i)) i * F_inv 0 j [ZMOD qKS] := by
  rw [keyRow_eq pos (by omega) fits]
  refine (Int.mod_modEq _ _).trans ((exactProduct_modEq _ _ _).trans ?_)
  refine (Int.ModEq.sum fun l _ => (addGadget_modEq pos word _ _ l).mul_right _).trans ?_
  simp [add_mul, Finset.sum_add_distrib]

theorem gadgetRow_lt (pos : 0 < qKS) (word : 2 * qKS ≤ 2 ^ w.bits) (small : ∀ l, E l < qKS) (l : Fin n) :
    gadgetRow w qKS QN baseKS skN E i l < qKS := by
  unfold gadgetRow addGadget
  split
  · rw [modAdd_eq pos word]
    exact Nat.mod_lt _ pos
  · exact small l

end Row

/-- Whatever was drawn, two rows of a party differ by a known multiple of the first row of `F_inv`. -/
theorem keySwitchGen_difference [NeZero n] {plat : Platform} (pos : 0 < qKS) (small : qKS < 2 ^ 31)
    (room : n * (qKS / 2) ^ 2 < 2 ^ 63) (sk : MNTRUPrivateKey k n) (reduced : ∀ u l j, sk.F_inv u l j < qKS)
    (skN : Fin k → Fin N → ℕ) (u : Fin k) (i i' : Fin (N * plat.digitCount qKS baseKS)) :
    ∃ c : ℤ, ∀ (stream : ℕ → NoiseVector n qKS) (j : Fin n),
      ((value (keySwitchGen w plat QN baseKS sk skN) stream u i).row j : ℤ) -
        (value (keySwitchGen w plat QN baseKS sk skN) stream u i').row j ≡ c * sk.F_inv u 0 j [ZMOD qKS] := by
  let s : Fin N → ℕ := fun i => switchModulus w QN qKS (skN u i)
  refine ⟨(gadgetTerm w qKS baseKS s i : ℤ) - gadgetTerm w qKS baseKS s i', fun stream j => ?_⟩
  have word : 2 * qKS ≤ 2 ^ w.bits := by
    cases w <;> norm_num [NativeSize.bits] <;> omega
  have row : ∀ i, ((value (keySwitchGen w plat QN baseKS sk skN) stream u i).row j : ℤ) ≡
      (∑ l, ((stream u l : ℕ) : ℤ) * sk.F_inv u l j) + gadgetTerm w qKS baseKS s i * sk.F_inv u 0 j [ZMOD qKS] := by
    intro i
    rw [keySwitchGen, forEach_value fun _ => partyRows_asks _ _ _, mul_one]
    refine keyRow_modEq pos word (rowFits_of_room pos small.le room ?_ (reduced u)) j
    exact fun l => gadgetRow_lt pos word (fun l => (stream u l).isLt) l
  refine ((row i).sub (row i')).trans ?_
  rw [add_sub_add_left_eq_sub, ← sub_mul]

end Difference
end MNTRU

/-! ### The reference vector -/

namespace UniEncCryptoParams
open MNTRU

/-- The coefficients that the generator drew. -/
def ofDraw {N Q : ℕ} (v : Fin N → Fin Q) : PolyValues := ⟨Q, List.ofFn fun i => (v i).val⟩

theorem ofDraw_injective {N Q : ℕ} : Function.Injective (ofDraw : (Fin N → Fin Q) → PolyValues) := by
  intro v v' same
  have values := congrFun (List.ofFn_injective (congrArg PolyValues.values same))
  exact funext fun i => Fin.ext (values i)

section CRS
variable (w : NativeSize) (plat : Platform) (polyParams : ILNativeParams) (k N Q q baseG baseR : ℕ)
variable (method : Method) (keyDist : SecretKeyDist) (signEval : Bool) (numAutoKeys : ℕ)

/-- The constructor as a program over the stream of `m_dgg`. -/
def generate : Sampler (Fin N → Fin Q) (Except Fault UniEncCryptoParams) := do
  let draw ← draw
  return construct w plat polyParams (ofDraw draw) k N Q q baseG baseR method keyDist signEval numAutoKeys

end CRS

/-- The polynomials of the reference vector are draws, no two of them the same one. -/
def OwnCRS {N Q : ℕ} (generate : Sampler (Fin N → Fin Q) (Except Fault UniEncCryptoParams)) : Prop :=
  ∃ d : ℕ → ℕ, ∀ stream p, value generate stream = .ok p →
    Set.InjOn d {i | i < p.digitsG - 1} ∧ ∀ i < p.digitsG - 1, p.CRS[i]? = some (ofDraw (stream (d i)))

section CRS
variable {w : NativeSize} {plat : Platform} {polyParams : ILNativeParams} {k N Q q baseG baseR : ℕ}
variable {method : Method} {keyDist : SecretKeyDist} {signEval : Bool} {numAutoKeys : ℕ}

theorem construct_accepted (draw : PolyValues) (power : baseG.isPowerOfTwo)
    (keys : method = .LMKCDEY → numAutoKeys ≠ 0) :
    ∃ p, construct w plat polyParams draw k N Q q baseG baseR method keyDist signEval numAutoKeys = .ok p ∧
      p.digitsG = plat.digitCount Q baseG ∧ p.CRS = List.replicate (plat.digitCount Q baseG - 1) draw := by
  rw [construct, if_neg (not_not.mpr power), if_neg (by tauto)]
  refine ⟨_, rfl, ?_, rfl⟩
  cases signEval <;> rfl

theorem ownCRS_iff (hN : 0 < N) (hQ : 1 < Q) (power : baseG.isPowerOfTwo)
    (keys : method = .LMKCDEY → numAutoKeys ≠ 0) :
    OwnCRS (generate w plat polyParams k N Q q baseG baseR method keyDist signEval numAutoKeys) ↔
      plat.digitCount Q baseG ≤ 2 := by
  have built : ∀ stream, ∃ p,
      value (generate w plat polyParams k N Q q baseG baseR method keyDist signEval numAutoKeys) stream = .ok p ∧
      p.digitsG = plat.digitCount Q baseG ∧ p.CRS = List.replicate (plat.digitCount Q baseG - 1) (ofDraw (stream 0)) :=
    fun stream => construct_accepted _ power keys
  constructor
  · rintro ⟨d, own⟩
    by_contra many
    have : Nonempty (Fin N) := ⟨⟨0, hN⟩⟩
    have : Nontrivial (Fin Q) := Fin.nontrivial_iff_two_le.mpr hQ
    -- Both entries are the first draw, whatever the stream.
    have first : ∀ i, i < 2 → d i = 0 := by
      intro i hi
      by_contra later
      obtain ⟨stream, differ⟩ := exists_stream_ne (α := Fin N → Fin Q) later
      obtain ⟨p, run, digits, crs⟩ := built stream
      have drawn := (own stream p run).2 i (by omega)
      rw [crs, List.getElem?_replicate, if_pos (by omega)] at drawn
      exact differ (ofDraw_injective (Option.some.inj drawn)).symm
    obtain ⟨p, run, digits, -⟩ := built fun _ _ => ⟨0, by omega⟩
    have same := (own _ p run).1 (show 0 < p.digitsG - 1 by omega) (show 1 < p.digitsG - 1 by omega)
      ((first 0 (by omega)).trans (first 1 (by omega)).symm)
    exact absurd same (by omega)
  · intro few
    refine ⟨id, fun stream p run => ⟨fun i _ j _ same => same, fun i hi => ?_⟩⟩
    obtain ⟨p', run', digits, crs⟩ := built stream
    obtain rfl : p = p' := by
      rw [run] at run'
      exact Except.ok.inj run'
    obtain rfl : i = 0 := by omega
    rw [crs, List.getElem?_replicate, if_pos (by omega)]
    rfl

end CRS
end UniEncCryptoParams

section Published
open MNTRU UniEncCryptoParams

/-- Each switching key has at most one row for a party exactly when its rows have noise of their own; the reference
vector has at most one polynomial exactly when its polynomials are draws of their own. -/
theorem published_rows_own_noise_iff (w : NativeSize) (plat : Platform) {k n N : ℕ} [NeZero n] (qKS QN baseKS : ℕ)
    (sk : MNTRUPrivateKey k n) (skN : Fin k → Fin N → ℕ) (polyParams : ILNativeParams) (q baseR numAutoKeys : ℕ)
    (keyDist : SecretKeyDist) (signEval : Bool) {Q baseG : ℕ} {method : Method} (hN : 0 < N) (hQ : 1 < Q)
    (power : baseG.isPowerOfTwo) (keys : method = .LMKCDEY → numAutoKeys ≠ 0) :
    (OwnNoise sk.F_inv
        (fun (stream : ℕ → NoiseVector n qKS) u i => (value (keySwitchGen w plat QN baseKS sk skN) stream u i).noise)
        (fun stream u i => (value (keySwitchGen w plat QN baseKS sk skN) stream u i).row) ↔
      k = 0 ∨ N * plat.digitCount qKS baseKS ≤ 1) ∧
    (OwnNoise sk.F_inv
        (fun (stream : ℕ → NoiseVector n qKS) u i => (value (keySwitchGen2 w plat QN baseKS sk skN) stream u i).noise)
        (fun stream u i => (value (keySwitchGen2 w plat QN baseKS sk skN) stream u i).multiple 1) ↔
      k = 0 ∨ N * plat.digitCount qKS baseKS ≤ 1) ∧
    (OwnCRS (generate w plat polyParams k N Q q baseG baseR method keyDist signEval numAutoKeys) ↔
      plat.digitCount Q baseG ≤ 2) := by
  refine ⟨ownNoise_iff ?_, ownNoise_iff ?_, ownCRS_iff hN hQ power keys⟩
  · intro stream u i
    exact keySwitchGen_noise stream u i
  · intro stream u i
    exact keySwitchGen2_noise stream u i

/-- One party, one-dimensional matrices, and three rows for the only coefficient of the ring key. -/
def unitKey : MNTRUPrivateKey 1 1 := ofMatrices (fun _ _ _ => 1) (fun _ _ _ => 1) 5

theorem unitKey_rows_share_noise :
    ¬ OwnNoise unitKey.F_inv
      (fun (stream : ℕ → NoiseVector 1 5) u i =>
        (value (keySwitchGen .w64 .threeDigits 17 2 unitKey fun _ (_ : Fin 1) => 1) stream u i).noise)
      (fun stream u i => (value (keySwitchGen .w64 .threeDigits 17 2 unitKey fun _ (_ : Fin 1) => 1) stream u i).row) :=
  not_ownNoise_of_shared keySwitchGen_noise (by decide) (by decide)

theorem unitKey_published_rows :
    0 < 1 ∧ 1 < 17 ∧
    (OwnNoise unitKey.F_inv
        (fun (stream : ℕ → NoiseVector 1 5) u i =>
          (value (keySwitchGen .w64 .threeDigits 17 2 unitKey fun _ (_ : Fin 1) => 1) stream u i).noise)
        (fun stream u i => (value (keySwitchGen .w64 .threeDigits 17 2 unitKey fun _ (_ : Fin 1) => 1) stream u i).row) ↔
      1 = 0 ∨ 1 * 3 ≤ 1) ∧
    (OwnCRS (generate .w64 .threeDigits ⟨2, 17, 16⟩ 1 1 17 4 4 2 .MKNTRU .UNIFORM_TERNARY false 0) ↔ 3 ≤ 2) := by
  have here := published_rows_own_noise_iff .w64 .threeDigits 5 17 2 unitKey (fun _ (_ : Fin 1) => 1)
    ⟨2, 17, 16⟩ 4 2 0 .UNIFORM_TERNARY false (show 0 < 1 by decide) (show 1 < 17 by decide)
    (show (4 : ℕ).isPowerOfTwo from ⟨2, rfl⟩) (fun h : Method.MKNTRU = .LMKCDEY => by cases h)
  exact ⟨by decide, by decide, here.1, here.2.2⟩

end Published
end MultiKeyFHE
