import MultiKeyFHE.KeyGen.MNTRU
import MultiKeyFHE.Native.FastProducts
import MultiKeyFHE.Library.InPlace

/-!
# The blocked product of the key switching

`MatrixMultiply` reduces every term and every sum. The loops of `KeySwitchGen` and `KeySwitchGen2` center both factors,
add up in `long`, and reduce once, through an `int32_t`.
-/

namespace MultiKeyFHE
open NativeInteger NativeVector InPlace

namespace MNTRU

section Model
variable (w : NativeSize)

/-- The loop over `k`, which adds to an entry that is zero. -/
def productEntry (A_row : List ℕ) (B : List (List ℕ)) (mod j : ℕ) : Except Fault ℕ :=
  (List.range A_row.length).foldlM (fun result k => do
    let a ← load .outOfRange A_row k
    let B_row ← load .outOfRange B k
    let b ← load .outOfRange B_row j
    return modAdd w result (modMul w a b mod) mod) 0

/-- `MatrixMultiply`, with `none` where the program exits. -/
def matrixMultiply (A B : List (List ℕ)) (mod : ℕ) : Except Fault (Option (List (List ℕ))) := do
  let numColsA := (← load .outOfRange A 0).length
  let numColsB := (← load .outOfRange B 0).length
  if numColsA ≠ B.length then return none
  else return some (← A.mapM fun A_row => (List.range numColsB).mapM fun j => productEntry w A_row B mod j)

/-- The loops that `KeySwitchGen` and `KeySwitchGen2` have in common, for the matrix `E` of a party. -/
def blockedProduct {rows n : ℕ} (qKS : ℕ) (E : Fin rows → Fin n → ℕ) (F_inv : Fin n → Fin n → ℕ) : Fin rows → Fin n → ℕ :=
  fun i j => modQ w qKS (rowProduct qKS (E i) F_inv j)

end Model

def entries {rows n : ℕ} (M : Fin rows → Fin n → ℕ) : List (List ℕ) := List.ofFn fun i => List.ofFn (M i)

/-- For all matrices of these sizes with entries below the modulus. -/
def BlockedIsPlain (w : NativeSize) (rows n q : ℕ) : Prop :=
  ∀ (E : Fin rows → Fin n → ℕ) (F_inv : Fin n → Fin n → ℕ), (∀ i l, E i l < q) → (∀ l j, F_inv l j < q) →
    matrixMultiply w (entries E) (entries F_inv) q = .ok (some (entries (blockedProduct w q E F_inv))) ∧
      ∀ i j, blockedProduct w q E F_inv i j < q

variable {w : NativeSize} {rows n q : ℕ}

/-! ### The plain product -/

theorem modAdd_of_fits {a b m : ℕ} (pos : 0 < m) (fits : 2 * m ≤ 2 ^ w.bits ∨ m ≤ 2 ^ w.bits ∧ a + b < m) :
    modAdd w a b m = (a + b) % m := by
  rcases fits with double | ⟨word, below⟩
  · exact modAdd_eq pos double
  · rw [modAdd, Nat.mod_eq_of_lt (show a < m by omega), Nat.mod_eq_of_lt (show b < m by omega), Nat.mod_eq_of_lt below,
      modAddFast]
    have exact : add w a b = a + b := Nat.mod_eq_of_lt (by omega)
    rw [exact, if_neg (by omega)]

theorem modMul_of_lt (pos : 0 < q) (word : q ≤ 2 ^ w.bits) {a b : ℕ} (ha : a < q) (hb : b < q) :
    modMul w a b q = a * b % q := by
  obtain ⟨below, same⟩ := mulReduce_spec (w := w) pos (show a < 2 ^ w.bits by omega) (show b < 2 ^ w.bits by omega)
  rw [modMul, if_neg (by omega), if_neg (by omega)]
  exact (Nat.mod_eq_of_lt below).symm.trans same

section Plain
variable {E : Fin rows → Fin n → ℕ} {F_inv : Fin n → Fin n → ℕ}

theorem productEntry_ok (pos : 0 < q) (word : q ≤ 2 ^ w.bits) (hE : ∀ i l, E i l < q) (hF : ∀ l j, F_inv l j < q)
    (i : Fin rows) (j : Fin n) (fits : 2 * q ≤ 2 ^ w.bits ∨ ∑ l, E i l * F_inv l j < q) :
    productEntry w (List.ofFn (E i)) (entries F_inv) q j = .ok ((∑ l, E i l * F_inv l j) % q) := by
  let term : ℕ → ℕ := fun k => if h : k < n then E i ⟨k, h⟩ * F_inv ⟨k, h⟩ j else 0
  have total : ∑ l, E i l * F_inv l j = ∑ k ∈ Finset.range n, term k := by
    rw [Finset.sum_range]
    exact Finset.sum_congr rfl fun l _ => by simp [term]
  obtain ⟨t, run, value⟩ := foldlM_range_ok (n := n) (s := 0) (fun c s => s = (∑ k ∈ Finset.range c, term k) % q)
    (f := fun result k => do
      let a ← load Fault.outOfRange (List.ofFn (E i)) k
      let B_row ← load Fault.outOfRange (entries F_inv) k
      let b ← load Fault.outOfRange B_row j
      return modAdd w result (modMul w a b q) q)
    (by simp) (by
      rintro k hk s rfl
      have first : load Fault.outOfRange (List.ofFn (E i)) k = .ok (E i ⟨k, hk⟩) := by
        rw [load_ok _ (by simpa using hk), List.getElem_ofFn]
      have second : load Fault.outOfRange (entries F_inv) k = .ok (List.ofFn (F_inv ⟨k, hk⟩)) := by
        rw [load_ok _ (by simpa [entries] using hk)]
        simp [entries]
      have third : load Fault.outOfRange (List.ofFn (F_inv ⟨k, hk⟩)) j = .ok (F_inv ⟨k, hk⟩ j) := by
        rw [load_ok _ (by simp), List.getElem_ofFn]
      refine ⟨_, ?_, rfl⟩
      rw [first, second]
      dsimp only [bind, Except.bind]
      rw [third]
      dsimp only
      rw [modMul_of_lt pos word (hE i _) (hF _ j)]
      have here : term k = E i ⟨k, hk⟩ * F_inv ⟨k, hk⟩ j := dif_pos hk
      rw [Finset.sum_range_succ, ← here, Nat.add_mod]
      refine congrArg Except.ok (modAdd_of_fits pos ?_)
      refine fits.imp id fun small => ⟨word, ?_⟩
      have upTo : ∑ k ∈ Finset.range (k + 1), term k ≤ ∑ k ∈ Finset.range n, term k :=
        Finset.sum_le_sum_of_subset (Finset.range_mono hk)
      rw [Finset.sum_range_succ] at upTo
      have := Nat.mod_le (∑ k ∈ Finset.range k, term k) q
      have := Nat.mod_le (term k) q
      omega)
  rw [productEntry, List.length_ofFn, run, value, total]

theorem matrixMultiply_ok (nonempty : 0 < rows) (square : 0 < n) (pos : 0 < q) (word : q ≤ 2 ^ w.bits)
    (hE : ∀ i l, E i l < q) (hF : ∀ l j, F_inv l j < q)
    (fits : ∀ i j, 2 * q ≤ 2 ^ w.bits ∨ ∑ l, E i l * F_inv l j < q) :
    matrixMultiply w (entries E) (entries F_inv) q = .ok (some (entries fun i j => (∑ l, E i l * F_inv l j) % q)) := by
  have first : load Fault.outOfRange (entries E) 0 = .ok (List.ofFn (E ⟨0, nonempty⟩)) := by
    rw [load_ok _ (by simpa [entries] using nonempty)]
    simp [entries]
  have second : load Fault.outOfRange (entries F_inv) 0 = .ok (List.ofFn (F_inv ⟨0, square⟩)) := by
    rw [load_ok _ (by simpa [entries] using square)]
    simp [entries]
  have row : ∀ i, ((List.range n).mapM fun j => productEntry w (List.ofFn (E i)) (entries F_inv) q j) =
      .ok (List.ofFn fun j => (∑ l, E i l * F_inv l j) % q) := by
    intro i
    rw [← List.map_coe_finRange_eq_range, List.mapM_map, List.ofFn_eq_map (f := fun j => _ % q)]
    exact Run.mapM_eq_map fun j _ => productEntry_ok pos word hE hF i j (fits i j)
  unfold matrixMultiply
  rw [first, second]
  dsimp only [bind, Except.bind]
  rw [List.length_ofFn, List.length_ofFn, if_neg (by simp [entries])]
  have all : ((entries E).mapM fun A_row => (List.range n).mapM fun j => productEntry w A_row (entries F_inv) q j) =
      .ok (entries fun i j => (∑ l, E i l * F_inv l j) % q) := by
    have target : (entries fun i j => (∑ l, E i l * F_inv l j) % q) =
        (List.finRange rows).map fun i => List.ofFn fun j => (∑ l, E i l * F_inv l j) % q := List.ofFn_eq_map
    have source : entries E = (List.finRange rows).map fun i => List.ofFn (E i) := List.ofFn_eq_map
    rw [target, source, List.mapM_map]
    exact Run.mapM_eq_map fun i _ => row i
  rw [all]
  rfl

theorem matrixMultiply_empty (missing : rows = 0 ∨ n = 0) :
    matrixMultiply w (entries E) (entries F_inv) q = .error .outOfRange := by
  rcases missing with rfl | rfl
  · rfl
  · cases rows with
    | zero => rfl
    | succ rows =>
      unfold matrixMultiply
      rw [load_ok _ (by simp [entries])]
      rfl

end Plain

/-! ### The blocked product -/

theorem blockedProduct_eq (pos : 0 < q) (small : q ≤ 2 ^ 31) (room : n * (q / 2) ^ 2 < 2 ^ 63) {E : Fin rows → Fin n → ℕ}
    (hE : ∀ i l, E i l < q) {F_inv : Fin n → Fin n → ℕ} (hF : ∀ l j, F_inv l j < q) (i : Fin rows) (j : Fin n) :
    blockedProduct w q E F_inv i j = (∑ l, E i l * F_inv l j) % q := by
  have word : q ≤ 2 ^ w.bits := by
    have := w.two_pow_32_le
    omega
  obtain ⟨long, int⟩ := rowFits_of_room pos small room (hE i) hF j
  zify
  rw [blockedProduct, rowProduct_eq_long, long_eq long, modQ_eq pos word int]
  exact exactProduct_modEq (E i) F_inv j

/-- Above `2 ^ 31`, the residue `2 ^ 31` wraps in the `int32_t`. -/
theorem modQ_wraps (large : 2 ^ 31 < q) (bound : q < 3 * 2 ^ 31) (word : q < 2 ^ w.bits) : modQ w q (2 ^ 31) ≠ 2 ^ 31 := by
  have remainder : (2 ^ 31 : ℤ).tmod q = 2 ^ 31 := Int.tmod_eq_of_lt (by norm_num) (by omega)
  have wrapped : (2 ^ 31 : ℤ).bmod (2 ^ 32) = -2 ^ 31 := by decide
  rw [modQ, remainder, wrapped, if_pos (by norm_num), Int.bmod_def]
  cases w <;> simp only [NativeSize.bits] at word ⊢ <;> split <;> omega

theorem lt_of_room (square : 0 < n) (room : n * (q / 2) ^ 2 < 2 ^ 63) : q < 3 * 2 ^ 31 := by
  have half : (q / 2) ^ 2 < 2 ^ 63 := (Nat.le_mul_of_pos_left _ square).trans_lt room
  have below : q / 2 < 3 * 2 ^ 30 := by
    by_contra large
    have := Nat.pow_le_pow_left (not_lt.mp large) 2
    norm_num at this half
    omega
  omega

/-- One entry in the corner, and zeros. -/
def corner {rows n : ℕ} (x : ℕ) (i : Fin rows) (j : Fin n) : ℕ := if i.val = 0 ∧ j.val = 0 then x else 0

theorem sum_corner (square : 0 < n) (i : Fin rows) (j : Fin n) {β : Type} [AddCommMonoid β] (f : ℕ → ℕ → β)
    (left : ∀ y, f 0 y = 0) (right : ∀ x, f x 0 = 0) (x y : ℕ) :
    ∑ l : Fin n, f (corner x i l) (corner y l j) = if i.val = 0 ∧ j.val = 0 then f x y else 0 := by
  rw [Finset.sum_eq_single ⟨0, square⟩]
  · by_cases hi : i.val = 0 <;> by_cases hj : j.val = 0 <;> simp [corner, hi, hj, left, right]
  · intro l _ other
    have later : l.val ≠ 0 := fun h => other (Fin.ext h)
    simp [corner, later, left]
  · intro absent
    exact absurd (Finset.mem_univ _) absent

theorem not_blockedIsPlain (nonempty : 0 < rows) (square : 0 < n) (word : q < 2 ^ w.bits)
    (room : n * (q / 2) ^ 2 < 2 ^ 63) (large : 2 ^ 31 < q) : ¬ BlockedIsPlain w rows n q := by
  intro plain
  have below : ∀ {rows n : ℕ} (x : ℕ), x < q → ∀ (i : Fin rows) (j : Fin n), corner x i j < q := by
    intro rows n x hx i j
    unfold corner
    split <;> omega
  obtain ⟨same, -⟩ := plain (corner 2) (corner (2 ^ 30)) (below 2 (by omega)) (below (2 ^ 30) (by omega))
  have sum : ∀ (i : Fin rows) (j : Fin n), ∑ l, corner 2 i l * corner (2 ^ 30) l j =
      if i.val = 0 ∧ j.val = 0 then 2 ^ 31 else 0 := fun i j =>
    sum_corner square i j (fun x y => x * y) (by simp) (by simp) 2 (2 ^ 30)
  rw [matrixMultiply_ok nonempty square (by omega) word.le (below 2 (by omega)) (below (2 ^ 30) (by omega)) fun i j => .inr ?_]
    at same
  · have lists := List.ofFn_injective (Option.some.inj (Except.ok.inj same))
    have entry := congrFun (List.ofFn_injective (congrFun lists ⟨0, nonempty⟩)) ⟨0, square⟩
    have product : exactProduct q (corner 2 (⟨0, nonempty⟩ : Fin rows)) (corner (2 ^ 30)) (⟨0, square⟩ : Fin n) = 2 ^ 31 := by
      rw [exactProduct, sum_corner square _ _ (fun x y => centered q x * centered q y) (by simp [centered])
        (by simp [centered]) 2 (2 ^ 30), if_pos ⟨rfl, rfl⟩]
      have two : centered q 2 = 2 := if_neg (by omega)
      have power : centered q (2 ^ 30) = 2 ^ 30 := by
        rw [centered, if_neg (by omega)]
        norm_num
      rw [two, power]
      norm_num
    have exact : long (2 ^ 31) = 2 ^ 31 := by decide
    dsimp only at entry
    rw [sum, if_pos ⟨rfl, rfl⟩, Nat.mod_eq_of_lt large, blockedProduct, rowProduct_eq_long, product, exact] at entry
    exact modQ_wraps large (lt_of_room square room) word entry.symm
  · rw [sum]
    split <;> omega

/-- An empty matrix has no first row to take its length from, and a modulus above `2 ^ 31` has residues that are not
those of an `int32_t`. -/
theorem blockedIsPlain_iff (pos : 0 < q) (word : q < 2 ^ w.bits) (room : n * (q / 2) ^ 2 < 2 ^ 63) :
    BlockedIsPlain w rows n q ↔ 0 < rows ∧ 0 < n ∧ q ≤ 2 ^ 31 := by
  constructor
  · intro plain
    have admitted : 0 < rows ∧ 0 < n := by
      by_contra missing
      obtain ⟨run, -⟩ := plain (fun _ _ => 0) (fun _ _ => 0) (fun _ _ => pos) (fun _ _ => pos)
      rw [matrixMultiply_empty (by omega)] at run
      cases run
    refine ⟨admitted.1, admitted.2, ?_⟩
    by_contra large
    exact not_blockedIsPlain admitted.1 admitted.2 word room (by omega) plain
  · rintro ⟨nonempty, square, small⟩ E F_inv hE hF
    have same : blockedProduct w q E F_inv = fun i j => (∑ l, E i l * F_inv l j) % q := by
      funext i j
      exact blockedProduct_eq pos small room hE hF i j
    have double : 2 * q ≤ 2 ^ w.bits := by
      have := w.two_pow_32_le
      omega
    rw [same, matrixMultiply_ok nonempty square pos word.le hE hF fun _ _ => .inl double]
    exact ⟨rfl, fun i j => Nat.mod_lt _ pos⟩

theorem blockedIsPlain_765 : BlockedIsPlain .w64 4 765 (2 ^ 27) ↔ 0 < 4 ∧ 0 < 765 ∧ 2 ^ 27 ≤ 2 ^ 31 :=
  blockedIsPlain_iff (by norm_num) (by norm_num [NativeSize.bits]) (by norm_num)

/-- The modulus is a prime between `2 ^ 31` and `2 ^ 32`. -/
theorem large_modulus_wraps :
    1 * (4294967291 / 2) ^ 2 < 2 ^ 63 ∧
    matrixMultiply .w64 (entries fun (_ _ : Fin 1) => 2) (entries fun (_ _ : Fin 1) => 2 ^ 30) 4294967291 =
      .ok (some [[2147483648]]) ∧
    entries (blockedProduct .w64 4294967291 (fun (_ _ : Fin 1) => 2) fun (_ _ : Fin 1) => 2 ^ 30) = [[2147483643]] ∧
    ¬ BlockedIsPlain .w64 1 1 4294967291 := by
  refine ⟨by norm_num, by decide, by decide, ?_⟩
  exact not_blockedIsPlain (by norm_num) (by norm_num) (by norm_num [NativeSize.bits]) (by norm_num) (by norm_num)

end MNTRU
end MultiKeyFHE
