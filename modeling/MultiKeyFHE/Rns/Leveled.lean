import MultiKeyFHE.Library.Horner
import MultiKeyFHE.Rns.DCRTPoly

/-!
# Sums and products of ciphertexts

A ciphertext is a polynomial in the secret key whose coefficients are its elements. `EvalAddCore`, `EvalSubCore`, `EvalMultCore`
and `EvalSquareCore` add and multiply these polynomials, and `DecryptCore` evaluates them.
-/

namespace MultiKeyFHE
open Negacyclic NegPoly NativeInteger Residues

namespace DCRTPoly
variable {ι : Type*} {B : Basis ι} {N : ℕ}

/-- `+=`. -/
def plusEq (a rhs : DCRTPoly B N) : DCRTPoly B N := { a with vectors := fun i => (a.vectors i).plusEq (rhs.vectors i) }

/-- `-=`. -/
def minusEq (a rhs : DCRTPoly B N) : DCRTPoly B N := { a with vectors := fun i => (a.vectors i).minus (rhs.vectors i) }

/-- `Negate`. -/
def negate (a : DCRTPoly B N) : DCRTPoly B N :=
  { a with vectors := fun i => (⟨(a.vectors i).format, 0⟩ : Tower N (B.q i)).minus (a.vectors i) }

/-- `*=`, which asks every tower. -/
def timesEq [Fintype ι] (a rhs : DCRTPoly B N) : Except Fault (DCRTPoly B N) :=
  if ∀ i, (a.vectors i).format = .evaluation ∧ (rhs.vectors i).format = .evaluation then
    .ok { a with vectors := fun i => (a.vectors i).times (rhs.vectors i) }
  else .error (.notImplementedError "operator* for PolyImpl supported only in Format::EVALUATION")

def setFormat (a : DCRTPoly B N) (format : Format) : DCRTPoly B N := if a.format ≠ format then a.switchFormat else a

/-- Evaluations of a polynomial with integer coefficients. -/
structure Holds [NeZero N] (a : DCRTPoly B N) (X : NegPoly N ℤ) : Prop where
  format : a.format = .evaluation
  consistent : a.Consistent
  represents : a.Represents X

variable [NeZero N] {a b : DCRTPoly B N} {X Y : NegPoly N ℤ}

namespace Holds

theorem plusEq (ha : a.Holds X) (hb : b.Holds Y) : (a.plusEq b).Holds (X + Y) :=
  ⟨ha.format, ha.consistent, fun i => by rw [map_add, ← ha.represents i, ← hb.represents i]; rfl⟩

theorem minusEq (ha : a.Holds X) (hb : b.Holds Y) : (a.minusEq b).Holds (X - Y) :=
  ⟨ha.format, ha.consistent, fun i => by rw [map_sub, ← ha.represents i, ← hb.represents i]; rfl⟩

theorem negate (ha : a.Holds X) : a.negate.Holds (-X) :=
  ⟨ha.format, ha.consistent, fun i => by rw [map_neg, ← ha.represents i, ← zero_sub]; rfl⟩

theorem times (ha : a.Holds X) (hb : b.Holds Y) : ∃ c, a.times b = .ok c ∧ c.Holds (X * Y) := by
  obtain ⟨c, product, format, consistent, represents⟩ :=
    times_represents ha.format hb.format ha.consistent ha.represents hb.represents
  exact ⟨c, product, format, consistent, represents⟩

theorem timesEq [Fintype ι] (ha : a.Holds X) (hb : b.Holds Y) : ∃ c, a.timesEq b = .ok c ∧ c.Holds (X * Y) := by
  refine ⟨_, if_pos fun i => ⟨(ha.consistent i).trans ha.format, (hb.consistent i).trans hb.format⟩, ha.format, ha.consistent, ?_⟩
  intro i
  rw [map_mul, ← ha.represents i, ← hb.represents i]
  rfl

theorem setFormat (ha : a.Holds X) : (a.setFormat .evaluation).Holds X := by
  rw [DCRTPoly.setFormat, if_neg (not_not.mpr ha.format)]
  exact ha

end Holds
end DCRTPoly

namespace LeveledSHE
open DCRTPoly
variable {ι : Type*} {B : Basis ι} {N : ℕ}

/-- The elements of `EvalAddCoreInPlace`. -/
def evalAddCore : List (DCRTPoly B N) → List (DCRTPoly B N) → List (DCRTPoly B N)
  | x :: cv1, y :: cv2 => x.plusEq y :: evalAddCore cv1 cv2
  | cv1, [] => cv1
  | [], cv2 => cv2

/-- The elements of `EvalSubCoreInPlace`. -/
def evalSubCore : List (DCRTPoly B N) → List (DCRTPoly B N) → List (DCRTPoly B N)
  | x :: cv1, y :: cv2 => x.minusEq y :: evalSubCore cv1 cv2
  | cv1, [] => cv1
  | [], cv2 => cv2.map negate

/-- What a pass of the loops of `EvalMultCore` does with a product. A place that nothing was added to is `none`. -/
def addFirst (cvMult : List (Option (DCRTPoly B N))) (place : ℕ) (product : DCRTPoly B N) : List (Option (DCRTPoly B N)) :=
  cvMult.modify place fun
    | none => some product
    | some sum => some (sum.plusEq product)

/-- The inner loop of `EvalMultCore` from `place` on. -/
def multRow (x : DCRTPoly B N) : ℕ → List (DCRTPoly B N) → List (Option (DCRTPoly B N)) → Except Fault (List (Option (DCRTPoly B N)))
  | _, [], cvMult => .ok cvMult
  | place, y :: rest, cvMult => do multRow x (place + 1) rest (addFirst cvMult place (← x.times y))

/-- The outer loop of `EvalMultCore` from `i` on. -/
def multRows (cv2 : List (DCRTPoly B N)) :
    ℕ → List (DCRTPoly B N) → List (Option (DCRTPoly B N)) → Except Fault (List (Option (DCRTPoly B N)))
  | _, [], cvMult => .ok cvMult
  | i, x :: rest, cvMult => do multRows cv2 (i + 1) rest (← multRow x i cv2 cvMult)

/-- The inner loop of `EvalSquareCore` from `place` on, past the square. -/
def squareRow (x : DCRTPoly B N) : ℕ → List (DCRTPoly B N) → List (Option (DCRTPoly B N)) → Except Fault (List (Option (DCRTPoly B N)))
  | _, [], cvSquare => .ok cvSquare
  | place, y :: rest, cvSquare => do
    let cvtemp ← x.times y
    squareRow x (place + 1) rest (addFirst (addFirst cvSquare place cvtemp) place cvtemp)

/-- The outer loop of `EvalSquareCore` from `i` on. -/
def squareRows : ℕ → List (DCRTPoly B N) → List (Option (DCRTPoly B N)) → Except Fault (List (Option (DCRTPoly B N)))
  | _, [], cvSquare => .ok cvSquare
  | i, x :: rest, cvSquare => do
    let cvSquare := addFirst cvSquare (i + i) (← x.times x)
    squareRows (i + 1) rest (← squareRow x (i + i + 1) rest cvSquare)

/-- `SetElements` with the sums. A place that is still empty has no towers to read. -/
def setElements (cv : List (Option (DCRTPoly B N))) : Except Fault (List (DCRTPoly B N)) :=
  cv.mapM fun
    | some element => .ok element
    | none => .error .nullDereference

/-- The elements of `EvalMultCore`. -/
def evalMultCore [Fintype ι] (cv1 cv2 : List (DCRTPoly B N)) : Except Fault (List (DCRTPoly B N)) :=
  match cv1, cv2 with
  | [x0, x1], [y0, y1] => do
    let c2 ← x1.times y1
    let c1 ← x1.timesEq y0
    let c0 ← y0.times x0
    return [c0, c1.plusEq (← x0.timesEq y1), c2]
  | cv1, cv2 => do setElements (← multRows cv2 0 cv1 (List.replicate (cv1.length + cv2.length - 1) none))

/-- The elements of `EvalSquareCore`. -/
def evalSquareCore (cv : List (DCRTPoly B N)) : Except Fault (List (DCRTPoly B N)) :=
  match cv with
  | [x0, x1] => do
    let c0 ← x0.times x0
    let c2 ← x1.times x1
    let cvtemp ← x0.times x1
    return [c0, cvtemp.plusEq cvtemp, c2]
  | cv => do setElements (← squareRows 0 cv (List.replicate (2 * cv.length - 1) none))

/-- The loop of `DecryptCore`. -/
def decryptLoop [Fintype ι] (scopy : DCRTPoly B N) :
    DCRTPoly B N → DCRTPoly B N → List (DCRTPoly B N) → Except Fault (DCRTPoly B N)
  | b, _, [] => .ok b
  | b, sPower, ci :: rest => do
    let b := b.plusEq (← sPower.times (ci.setFormat .evaluation))
    decryptLoop scopy b (← sPower.timesEq scopy) rest

/-- `DecryptCore`, with the towers of the key that the ciphertext has. -/
def decryptCore [Fintype ι] (scopy : DCRTPoly B N) : List (DCRTPoly B N) → Except Fault (DCRTPoly B N)
  | [] => .error .outOfRange
  | c0 :: rest => decryptLoop scopy (c0.setFormat .evaluation) scopy rest

/-! ### The loops -/

section Loops
variable [NeZero N] {S X : NegPoly N ℤ} {x : DCRTPoly B N} {cv ys xs : List (DCRTPoly B N)} {Xs Ys W : List (NegPoly N ℤ)}
  {sums : List (Option (DCRTPoly B N))} {place : ℕ}

/-- What a place of the result stands for. -/
def Slot : Option (DCRTPoly B N) → NegPoly N ℤ → Prop
  | none, X => X = 0
  | some p, X => p.Holds X

/-- The first places are written. -/
def Filled (n : ℕ) (sums : List (Option (DCRTPoly B N))) : Prop := ∀ k < n, ∃ p, sums[k]? = some (some p)

/-- The places stand for a polynomial with value `V`, and the first `n` of them are written. -/
structure Collects (S : NegPoly N ℤ) (size n : ℕ) (V : NegPoly N ℤ) (sums : List (Option (DCRTPoly B N))) : Prop where
  length : sums.length = size
  filled : Filled n sums
  slots : ∃ W, List.Forall₂ Slot sums W ∧ Horner.value S W = V

theorem Collects.mono {size n k : ℕ} {V : NegPoly N ℤ} (h : Collects S size n V sums) (le : k ≤ n) : Collects S size k V sums :=
  ⟨h.length, fun j below => h.filled j (below.trans_le le), h.slots⟩

theorem addFirst_slots (slots : List.Forall₂ Slot sums W) (holds : x.Holds X) :
    List.Forall₂ Slot (addFirst sums place x) (W.modify place (· + X)) := by
  unfold addFirst
  induction slots generalizing place with
  | nil => simp
  | @cons o Z sums W slot slots ih =>
    cases place with
    | succ place => exact .cons slot ih
    | zero =>
      refine .cons ?_ slots
      cases o with
      | none =>
        change x.Holds (Z + X)
        rw [show Z = 0 from slot, zero_add]
        exact holds
      | some p => exact Holds.plusEq slot holds

theorem addFirst_collects {size : ℕ} {V : NegPoly N ℤ} (h : Collects S size place V sums) (inside : place < size) (holds : x.Holds X) :
    Collects S size (place + 1) (V + S ^ place * X) (addFirst sums place x) := by
  obtain ⟨length, filled, W, slots, value⟩ := h
  refine ⟨by simp [addFirst, length], fun k below => ?_, _, addFirst_slots slots holds, ?_⟩
  · rw [addFirst, List.getElem?_modify]
    rcases Nat.lt_succ_iff_lt_or_eq.mp below with before | rfl
    · obtain ⟨p, at_k⟩ := filled k before
      simp [before.ne', at_k]
    · obtain ⟨o, at_k⟩ : ∃ o, sums[k]? = some o := ⟨_, List.getElem?_eq_getElem (length ▸ inside)⟩
      cases o <;> simp [at_k]
  · rw [Horner.value_modify (by rwa [← slots.length_eq, length]), value]

theorem multRow_collects {size : ℕ} {V : NegPoly N ℤ} (hx : x.Holds X) (hys : List.Forall₂ Holds ys Ys)
    (h : Collects S size place V sums) (inside : place + ys.length ≤ size) :
    ∃ sums', multRow x place ys sums = .ok sums' ∧
      Collects S size (place + ys.length) (V + S ^ place * (X * Horner.value S Ys)) sums' := by
  induction hys generalizing place V sums with
  | nil => exact ⟨sums, rfl, by simpa using h⟩
  | @cons y Y ys Ys hy _ ih =>
    rw [List.length_cons] at inside
    obtain ⟨product, times, holds⟩ := hx.times hy
    obtain ⟨sums', run, collects⟩ := ih (addFirst_collects h (by omega) holds) (by omega)
    refine ⟨sums', ?_, ?_⟩
    · rw [multRow, times]
      exact run
    · convert collects using 1
      · rw [List.length_cons]
        omega
      · rw [Horner.value_cons]
        ring

theorem multRows_collects {size i : ℕ} {V : NegPoly N ℤ} (hys : List.Forall₂ Holds ys Ys) (nonempty : ys ≠ [])
    (hxs : List.Forall₂ Holds xs Xs) (h : Collects S size i V sums) (inside : i + xs.length + ys.length ≤ size + 1)
    (ends : xs = [] → Collects S size (i + ys.length - 1) V sums) :
    ∃ sums', multRows ys i xs sums = .ok sums' ∧
      Collects S size (i + xs.length + ys.length - 1) (V + S ^ i * (Horner.value S Xs * Horner.value S Ys)) sums' := by
  have positive := List.length_pos_iff.mpr nonempty
  induction hxs generalizing i V sums with
  | nil => exact ⟨sums, rfl, by simpa using ends rfl⟩
  | @cons x X xs Xs hx _ ih =>
    rw [List.length_cons] at inside
    obtain ⟨row, once, collects⟩ := multRow_collects hx hys h (by omega)
    obtain ⟨sums', run, rest⟩ := ih (i := i + 1) (collects.mono (by omega)) (by omega) fun _ => collects.mono (by omega)
    refine ⟨sums', ?_, ?_⟩
    · rw [multRows, once]
      exact run
    · convert rest using 1
      · rw [List.length_cons]
        omega
      · rw [Horner.value_cons]
        ring

theorem squareRow_collects {size : ℕ} {V : NegPoly N ℤ} (hx : x.Holds X) (hys : List.Forall₂ Holds ys Ys)
    (h : Collects S size place V sums) (inside : place + ys.length ≤ size) :
    ∃ sums', squareRow x place ys sums = .ok sums' ∧
      Collects S size (place + ys.length) (V + 2 * (S ^ place * (X * Horner.value S Ys))) sums' := by
  induction hys generalizing place V sums with
  | nil => exact ⟨sums, rfl, by simpa using h⟩
  | @cons y Y ys Ys hy _ ih =>
    rw [List.length_cons] at inside
    obtain ⟨product, times, holds⟩ := hx.times hy
    have twice := addFirst_collects ((addFirst_collects h (by omega) holds).mono (Nat.le_succ place)) (by omega) holds
    obtain ⟨sums', run, collects⟩ := ih twice (by omega)
    refine ⟨sums', ?_, ?_⟩
    · rw [squareRow, times]
      exact run
    · convert collects using 1
      · rw [List.length_cons]
        omega
      · rw [Horner.value_cons]
        ring

theorem squareRows_collects {size i : ℕ} {V : NegPoly N ℤ} (hxs : List.Forall₂ Holds xs Xs)
    (h : Collects S size (i + i - 1) V sums) (more : xs ≠ [] → Collects S size (i + i) V sums)
    (inside : 2 * (i + xs.length) ≤ size + 1) :
    ∃ sums', squareRows i xs sums = .ok sums' ∧
      Collects S size (2 * (i + xs.length) - 1) (V + S ^ (i + i) * (Horner.value S Xs * Horner.value S Xs)) sums' := by
  induction hxs generalizing i V sums with
  | nil => exact ⟨sums, rfl, by simpa [two_mul] using h⟩
  | @cons x X xs Xs hx hxs ih =>
    rw [List.length_cons] at inside
    obtain ⟨square, times, holds⟩ := hx.times hx
    obtain ⟨row, once, collects⟩ :=
      squareRow_collects hx hxs (addFirst_collects (more (List.cons_ne_nil x xs)) (by omega) holds) (by omega)
    have longer : xs ≠ [] → i + 1 + (i + 1) ≤ i + i + 1 + xs.length := by
      intro nonempty
      have positive := List.length_pos_iff.mpr nonempty
      omega
    obtain ⟨sums', run, rest⟩ := ih (i := i + 1) (collects.mono (by omega)) (fun nonempty => collects.mono (longer nonempty)) (by omega)
    refine ⟨sums', ?_, ?_⟩
    · rw [squareRows, times]
      exact (congrArg (· >>= _) once).trans run
    · convert rest using 1
      · rw [List.length_cons]
        omega
      · rw [Horner.value_cons]
        ring

theorem setElements_holds {size : ℕ} {V : NegPoly N ℤ} (h : Collects S size size V sums) :
    ∃ cv W, setElements sums = .ok cv ∧ List.Forall₂ Holds cv W ∧ Horner.value S W = V ∧ cv.length = size := by
  obtain ⟨length, filled, W, slots, value⟩ := h
  have written : ∀ o ∈ sums, ∃ p, o = some p := by
    intro o member
    obtain ⟨k, below, rfl⟩ := List.getElem_of_mem member
    obtain ⟨p, at_k⟩ := filled k (length ▸ below)
    rw [List.getElem?_eq_getElem below, Option.some.injEq] at at_k
    exact ⟨p, at_k⟩
  suffices every : ∃ cv, setElements sums = .ok cv ∧ List.Forall₂ Holds cv W ∧ cv.length = sums.length by
    obtain ⟨cv, run, holds, same⟩ := every
    exact ⟨cv, W, run, holds, value, same.trans length⟩
  clear length filled value
  induction slots with
  | nil => exact ⟨[], rfl, .nil, rfl⟩
  | @cons o X sums W slot _ ih =>
    obtain ⟨p, rfl⟩ := written o List.mem_cons_self
    obtain ⟨cv, run, holds, same⟩ := ih fun o member => written o (List.mem_cons_of_mem _ member)
    refine ⟨p :: cv, ?_, .cons slot holds, by simp [same]⟩
    rw [setElements] at run ⊢
    rw [List.mapM_cons, run]
    rfl

theorem collects_replicate (S : NegPoly N ℤ) (size : ℕ) :
    Collects S size 0 0 (List.replicate size (none : Option (DCRTPoly B N))) := by
  refine ⟨List.length_replicate, fun k below => absurd below (Nat.not_lt_zero k), List.replicate size 0, ?_, by simp⟩
  induction size with
  | zero => exact .nil
  | succ size ih => exact .cons rfl ih

end Loops

/-! ### What a ciphertext encrypts -/

section Encrypts
variable [NeZero N] {S V V' : NegPoly N ℤ} {cv cv' : List (DCRTPoly B N)}

/-- The value of the elements at the key is `V`, up to multiples of the modulus. -/
def Encrypts (S : NegPoly N ℤ) (cv : List (DCRTPoly B N)) (V : NegPoly N ℤ) : Prop :=
  ∃ W, List.Forall₂ Holds cv W ∧ Horner.value S W = V

omit [NeZero N] in
theorem evalAddCore_length (cv cv' : List (DCRTPoly B N)) : (evalAddCore cv cv').length = max cv.length cv'.length := by
  fun_induction evalAddCore cv cv' with
  | case1 x cv1 y cv2 ih => simp [ih]
  | case2 cv1 => simp
  | case3 cv2 => simp

omit [NeZero N] in
theorem evalSubCore_length (cv cv' : List (DCRTPoly B N)) : (evalSubCore cv cv').length = max cv.length cv'.length := by
  fun_induction evalSubCore cv cv' with
  | case1 x cv1 y cv2 ih => simp [ih]
  | case2 cv1 => simp
  | case3 cv2 => simp

theorem evalAddCore_encrypts (h : Encrypts S cv V) (h' : Encrypts S cv' V') : Encrypts S (evalAddCore cv cv') (V + V') := by
  obtain ⟨W, holds, rfl⟩ := h
  obtain ⟨W', holds', rfl⟩ := h'
  induction holds generalizing cv' W' with
  | nil =>
    cases holds' with
    | nil => exact ⟨[], .nil, by simp⟩
    | cons hy rest => exact ⟨_, .cons hy rest, by simp⟩
  | @cons x X xs Xs hx hxs ih =>
    cases holds' with
    | nil => exact ⟨_, .cons hx hxs, by simp⟩
    | @cons y Y ys Ys hy hys =>
      obtain ⟨Z, holds, value⟩ := ih Ys hys
      refine ⟨(X + Y) :: Z, .cons (hx.plusEq hy) holds, ?_⟩
      rw [Horner.value_cons, value, Horner.value_cons, Horner.value_cons]
      ring

theorem evalSubCore_encrypts (h : Encrypts S cv V) (h' : Encrypts S cv' V') : Encrypts S (evalSubCore cv cv') (V - V') := by
  obtain ⟨W, holds, rfl⟩ := h
  obtain ⟨W', holds', rfl⟩ := h'
  induction holds generalizing cv' W' with
  | nil =>
    refine ⟨W'.map (-·), ?_, by rw [Horner.value_map_neg]; simp⟩
    cases holds' with
    | nil => exact .nil
    | cons hy rest => exact .cons hy.negate (List.forall₂_map_left_iff.mpr (List.forall₂_map_right_iff.mpr (rest.imp fun _ _ h => h.negate)))
  | @cons x X xs Xs hx hxs ih =>
    cases holds' with
    | nil => exact ⟨_, .cons hx hxs, by simp⟩
    | @cons y Y ys Ys hy hys =>
      obtain ⟨Z, holds, value⟩ := ih Ys hys
      refine ⟨(X - Y) :: Z, .cons (hx.minusEq hy) holds, ?_⟩
      rw [Horner.value_cons, value, Horner.value_cons, Horner.value_cons]
      ring

theorem evalMultCore_encrypts [Fintype ι] (nonempty : cv ≠ []) (nonempty' : cv' ≠ []) (h : Encrypts S cv V)
    (h' : Encrypts S cv' V') :
    ∃ c, evalMultCore cv cv' = .ok c ∧ Encrypts S c (V * V') ∧ c.length = cv.length + cv'.length - 1 := by
  obtain ⟨W, holds, rfl⟩ := h
  obtain ⟨W', holds', rfl⟩ := h'
  unfold evalMultCore
  split
  · rename_i x0 x1 y0 y1
    obtain _ | ⟨hx0, _ | ⟨hx1, _ | _⟩⟩ := holds
    obtain _ | ⟨hy0, _ | ⟨hy1, _ | _⟩⟩ := holds'
    obtain ⟨c2, second, holds2⟩ := hx1.times hy1
    obtain ⟨c1, first, holds1⟩ := hx1.timesEq hy0
    obtain ⟨c0, constant, holds0⟩ := hy0.times hx0
    obtain ⟨c1', first', holds1'⟩ := hx0.timesEq hy1
    refine ⟨_, by rw [second, first, constant, first']; rfl, ⟨_, .cons holds0 (.cons (holds1.plusEq holds1') (.cons holds2 .nil)), ?_⟩, rfl⟩
    simp only [Horner.value_cons, Horner.value_nil]
    ring
  · have positive := List.length_pos_iff.mpr nonempty
    have positive' := List.length_pos_iff.mpr nonempty'
    obtain ⟨sums, run, collects⟩ := multRows_collects holds' nonempty' holds
      (collects_replicate S (cv.length + cv'.length - 1)) (by omega) fun empty => absurd empty nonempty
    rw [zero_add] at collects
    obtain ⟨c, Z, set, elements, value, length⟩ := setElements_holds collects
    refine ⟨c, by rw [run]; exact set, ⟨Z, elements, value.trans ?_⟩, length⟩
    ring

theorem evalSquareCore_encrypts (nonempty : cv ≠ []) (h : Encrypts S cv V) :
    ∃ c, evalSquareCore cv = .ok c ∧ Encrypts S c (V * V) ∧ c.length = 2 * cv.length - 1 := by
  obtain ⟨W, holds, rfl⟩ := h
  unfold evalSquareCore
  split
  · rename_i x0 x1
    obtain _ | ⟨hx0, _ | ⟨hx1, _ | _⟩⟩ := holds
    obtain ⟨c0, constant, holds0⟩ := hx0.times hx0
    obtain ⟨c2, second, holds2⟩ := hx1.times hx1
    obtain ⟨cvtemp, first, holds1⟩ := hx0.times hx1
    refine ⟨_, by rw [constant, second, first]; rfl, ⟨_, .cons holds0 (.cons (holds1.plusEq holds1) (.cons holds2 .nil)), ?_⟩, rfl⟩
    simp only [Horner.value_cons, Horner.value_nil]
    ring
  · have positive := List.length_pos_iff.mpr nonempty
    have start := collects_replicate (B := B) S (2 * cv.length - 1)
    obtain ⟨sums, run, collects⟩ := squareRows_collects (i := 0) holds start (fun _ => start) (by omega)
    rw [zero_add] at collects
    obtain ⟨c, Z, set, elements, value, length⟩ := setElements_holds collects
    refine ⟨c, by rw [run]; exact set, ⟨Z, elements, value.trans ?_⟩, length⟩
    ring

theorem decryptLoop_holds [Fintype ι] {scopy b sPower : DCRTPoly B N} {X P : NegPoly N ℤ} {W : List (NegPoly N ℤ)}
    (key : scopy.Holds S) (sum : b.Holds X) (power : sPower.Holds P) (holds : List.Forall₂ Holds cv W) :
    ∃ c, decryptLoop scopy b sPower cv = .ok c ∧ c.Holds (X + P * Horner.value S W) := by
  induction holds generalizing b sPower X P with
  | nil => exact ⟨b, rfl, by simpa using sum⟩
  | @cons ci Z rest W hc _ ih =>
    obtain ⟨product, times, added⟩ := power.times hc.setFormat
    obtain ⟨next, raised, power'⟩ := power.timesEq key
    obtain ⟨c, run, result⟩ := ih (sum.plusEq added) power'
    refine ⟨c, ?_, ?_⟩
    · rw [decryptLoop, times, raised]
      exact run
    · convert result using 1
      rw [Horner.value_cons]
      ring

theorem decryptCore_holds [Fintype ι] {scopy : DCRTPoly B N} (key : scopy.Holds S) (nonempty : cv ≠ []) (h : Encrypts S cv V) :
    ∃ b, decryptCore scopy cv = .ok b ∧ b.Holds V := by
  obtain ⟨W, holds, rfl⟩ := h
  obtain _ | ⟨hx, rest⟩ := holds
  · exact absurd rfl nonempty
  · obtain ⟨b, run, result⟩ := decryptLoop_holds key hx.setFormat key rest
    exact ⟨b, run, result⟩

end Encrypts

end LeveledSHE
end MultiKeyFHE
