import MultiKeyFHE.Library.Residues
import MultiKeyFHE.Native.Poly
import MultiKeyFHE.Polynomial.Impl

/-!
# Double CRT polynomials

`DCRTPolyImpl` keeps a polynomial modulo a product of word-sized primes as one tower for each prime. `CRTInterpolate` goes back
to the product. The towers of a sum or product are the sums or products of the towers.
-/

namespace MultiKeyFHE
open Negacyclic NegPoly NativeInteger NativeVector Residues

/-- `PolyImpl` modulo `Q` with its format. The polynomial is kept as its coefficients in both formats, so an operation on two
towers is that of the code where their formats agree. -/
structure Tower (N Q : ℕ) where
  format : Format
  poly : NativePoly N Q

namespace Format

/-- The format that `SwitchFormat` changes to. -/
def other : Format → Format
  | evaluation => coefficient
  | coefficient => evaluation

end Format

namespace Tower
variable {N Q : ℕ}

def switchFormat (t : Tower N Q) : Tower N Q := { t with format := t.format.other }

def setFormat (t : Tower N Q) (format : Format) : Tower N Q := if t.format ≠ format then t.switchFormat else t

/-- `*=` with a word. -/
def timesEq (t : Tower N Q) (element : ℕ) : Tower N Q := { t with poly := NativePoly.times (element : ZMod Q) t.poly }

/-- `+=`, for towers of one format. -/
def plusEq (t rhs : Tower N Q) : Tower N Q := { t with poly := t.poly + rhs.poly }

/-- `Minus`, which does not compare the formats. -/
def minus (t rhs : Tower N Q) : Tower N Q := { t with poly := t.poly - rhs.poly }

/-- `TimesNoCheck`, for two towers of evaluations. -/
def times (t rhs : Tower N Q) : Tower N Q := { t with poly := t.poly * rhs.poly }

/-- `SwitchModulus` on coefficients. -/
def switchModulus (w : NativeSize) (modulus : ℕ) (t : Tower N Q) : Tower N modulus where
  format := t.format
  poly := ⟨fun j => (NativeVector.switchModulus w Q modulus (t.poly.coeff j).val : ZMod modulus)⟩

@[simp] theorem setFormat_poly (t : Tower N Q) (format : Format) : (t.setFormat format).poly = t.poly := by
  unfold setFormat
  split <;> rfl

@[simp] theorem coeff_timesEq (t : Tower N Q) (element : ℕ) (j : Fin N) :
    (t.timesEq element).poly.coeff j = element * t.poly.coeff j := rfl
@[simp] theorem plusEq_poly (t rhs : Tower N Q) : (t.plusEq rhs).poly = t.poly + rhs.poly := rfl

end Tower

/-- The polynomial modulo `Q` of a polynomial with integer coefficients. -/
def residue (Q : ℕ) {N : ℕ} [NeZero N] : NegPoly N ℤ →+* NativePoly N Q := coeffHom (Int.castRingHom (ZMod Q))

theorem coeff_residue {Q N : ℕ} [NeZero N] (X : NegPoly N ℤ) (j : Fin N) : (residue Q X).coeff j = (X.coeff j : ZMod Q) := rfl

theorem residue_eq_iff {Q N : ℕ} [NeZero N] {X Y : NegPoly N ℤ} :
    residue Q X = residue Q Y ↔ ∀ j, X.coeff j ≡ Y.coeff j [ZMOD Q] := by
  rw [NegPoly.ext_iff, funext_iff]
  exact forall_congr' fun j => ZMod.intCast_eq_intCast_iff _ _ _

/-- The coefficients as numbers below the modulus. -/
def NativePoly.numbers {N Q : ℕ} (a : NativePoly N Q) : NegPoly N ℤ := ⟨fun j => (a.coeff j).val⟩

theorem NativePoly.coeff_numbers {N Q : ℕ} (a : NativePoly N Q) (j : Fin N) : a.numbers.coeff j = (a.coeff j).val := rfl

theorem residue_numbers {N Q : ℕ} [NeZero N] [NeZero Q] (a : NativePoly N Q) : residue Q a.numbers = a := by
  ext j
  simp [coeff_residue, NativePoly.numbers]

/-- One tower for each modulus. Where the order of the towers matters, the index type tells the first or the last. -/
structure DCRTPoly {ι : Type*} (B : Basis ι) (N : ℕ) where
  format : Format
  vectors : (i : ι) → Tower N (B.q i)

namespace DCRTPoly
variable {ι : Type*} {B : Basis ι} {N : ℕ}

/-- The constructor from a polynomial over big integers, in coefficient format. -/
def ofPolyLarge {R : ℕ} (rhs : NativePoly N R) : DCRTPoly B N where
  format := .coefficient
  vectors i := ⟨.coefficient, ⟨fun j => ((rhs.coeff j).val % B.q i : ℕ)⟩⟩

/-- The words of the towers in coefficient format. -/
def words (a : DCRTPoly B N) (i : ι) (ri : Fin N) : ℕ := ((a.vectors i).poly.coeff ri).val

/-- Towers with given words. -/
def ofWords (format : Format) (words : ι → Fin N → ℕ) : DCRTPoly B N where
  format := format
  vectors i := ⟨format, ⟨fun ri => (words i ri : ZMod (B.q i))⟩⟩

def plus (a rhs : DCRTPoly B N) : Except Fault (DCRTPoly B N) :=
  if a.format ≠ rhs.format then .error (.notImplementedError "Format missmatch")
  else .ok ⟨a.format, fun i => (a.vectors i).plusEq (rhs.vectors i)⟩

def minus (a rhs : DCRTPoly B N) : DCRTPoly B N := ⟨a.format, fun i => (a.vectors i).minus (rhs.vectors i)⟩

def times (a rhs : DCRTPoly B N) : Except Fault (DCRTPoly B N) :=
  if a.format ≠ .evaluation ∨ rhs.format ≠ .evaluation then
    .error (.notImplementedError "operator* for DCRTPolyImpl supported only in Format::EVALUATION")
  else .ok ⟨a.format, fun i => (a.vectors i).times (rhs.vectors i)⟩

def switchFormat (a : DCRTPoly B N) : DCRTPoly B N := ⟨a.format.other, fun i => (a.vectors i).switchFormat⟩

variable [Fintype ι]

/-- The loop of `CRTInterpolate` over the towers, before the reduction. -/
def crtSum (a : DCRTPoly B N) (ri : Fin N) : ℕ := ∑ vi, a.words vi ri * (B.hat vi * B.hatInv vi)

/-- `CRTInterpolate`. -/
def crtInterpolate (a : DCRTPoly B N) : NativePoly N B.modulus := ⟨fun ri => (a.crtSum ri % B.modulus : ℕ)⟩

/-! ### What the towers stand for -/

/-- The towers have the format of the whole. -/
def Consistent {ι : Type*} {B : Basis ι} {N : ℕ} (a : DCRTPoly B N) : Prop := ∀ i, (a.vectors i).format = a.format

variable [NeZero N]

omit [Fintype ι] in
/-- The towers hold a polynomial with integer coefficients. -/
def Represents (a : DCRTPoly B N) (X : NegPoly N ℤ) : Prop := ∀ i, (a.vectors i).poly = residue (B.q i) X

omit [Fintype ι] in
theorem represents_iff {a : DCRTPoly B N} {X : NegPoly N ℤ} :
    a.Represents X ↔ ∀ i j, (a.words i j : ℤ) ≡ X.coeff j [ZMOD B.q i] := by
  refine forall_congr' fun i => ?_
  rw [NegPoly.ext_iff, funext_iff]
  refine forall_congr' fun j => ?_
  rw [coeff_residue, ← ZMod.intCast_eq_intCast_iff, words]
  simp

omit [Fintype ι] in
theorem represents_ofWords {format : Format} {words : ι → Fin N → ℕ} {X : NegPoly N ℤ}
    (same : ∀ i j, (words i j : ℤ) ≡ X.coeff j [ZMOD B.q i]) : (ofWords format words : DCRTPoly B N).Represents X := by
  intro i
  ext j
  rw [coeff_residue, ← (ZMod.intCast_eq_intCast_iff _ _ _).mpr (same i j), Int.cast_natCast]
  rfl

instance : NeZero B.modulus := ⟨B.modulus_pos.ne'⟩

variable [DecidableEq ι]

omit [NeZero N] [DecidableEq ι] in
theorem coeff_crtInterpolate (a : DCRTPoly B N) (ri : Fin N) :
    a.crtInterpolate.coeff ri = (a.crtSum ri : ZMod B.modulus) := ZMod.natCast_mod _ _

omit [NeZero N] [DecidableEq ι] in
theorem coeff_numbers_crtInterpolate (a : DCRTPoly B N) (ri : Fin N) :
    a.crtInterpolate.numbers.coeff ri = a.crtSum ri % B.modulus := by
  rw [NativePoly.coeff_numbers, coeff_crtInterpolate, ZMod.val_natCast, Int.natCast_mod]

theorem crtInterpolate_of_represents {a : DCRTPoly B N} {X : NegPoly N ℤ} (represents : a.Represents X) :
    a.crtInterpolate = residue B.modulus X := by
  ext ri
  rw [coeff_residue, coeff_crtInterpolate, ← Int.cast_natCast, ZMod.intCast_eq_intCast_iff, crtSum]
  push_cast
  exact B.sum_residues fun i => represents_iff.mp represents i ri

omit [Fintype ι] [DecidableEq ι] in
theorem represents_ofPolyLarge {R : ℕ} (rhs : NativePoly N R) : (ofPolyLarge rhs : DCRTPoly B N).Represents rhs.numbers := by
  intro i
  ext j
  simp [ofPolyLarge, coeff_residue, NativePoly.numbers]

theorem represents_crtInterpolate (a : DCRTPoly B N) : a.Represents a.crtInterpolate.numbers := by
  refine represents_iff.mpr fun i j => ?_
  have sum := B.sum_residue (fun vi => a.words vi j) i
  rw [coeff_numbers_crtInterpolate, crtSum]
  push_cast
  exact sum.symm.trans (B.modEq_of_modulus (Int.mod_modEq _ _).symm i)

omit [Fintype ι] [DecidableEq ι] in
theorem Represents.poly_eq {a b : DCRTPoly B N} {X : NegPoly N ℤ} (ha : a.Represents X) (hb : b.Represents X) (i : ι) :
    (a.vectors i).poly = (b.vectors i).poly := (ha i).trans (hb i).symm

omit [Fintype ι] [DecidableEq ι] in
theorem plus_represents {a b : DCRTPoly B N} {X Y : NegPoly N ℤ} (same : a.format = b.format) (consistent : a.Consistent)
    (ha : a.Represents X) (hb : b.Represents Y) :
    ∃ c, a.plus b = .ok c ∧ c.format = a.format ∧ c.Consistent ∧ c.Represents (X + Y) := by
  refine ⟨_, if_neg (not_not.mpr same), rfl, consistent, fun i => ?_⟩
  rw [map_add, ← ha i, ← hb i]
  rfl

omit [Fintype ι] [DecidableEq ι] in
theorem minus_represents {a b : DCRTPoly B N} {X Y : NegPoly N ℤ} (ha : a.Represents X) (hb : b.Represents Y) :
    (a.minus b).Represents (X - Y) := by
  intro i
  rw [map_sub, ← ha i, ← hb i]
  rfl

omit [Fintype ι] [DecidableEq ι] in
theorem times_represents {a b : DCRTPoly B N} {X Y : NegPoly N ℤ} (evaluations : a.format = .evaluation)
    (evaluations' : b.format = .evaluation) (consistent : a.Consistent) (ha : a.Represents X) (hb : b.Represents Y) :
    ∃ c, a.times b = .ok c ∧ c.format = .evaluation ∧ c.Consistent ∧ c.Represents (X * Y) := by
  refine ⟨_, if_neg (by simp [evaluations, evaluations']), evaluations, consistent, fun i => ?_⟩
  rw [map_mul, ← ha i, ← hb i]
  rfl

end DCRTPoly

/-- Three and five. -/
def threeFive : Basis (Fin 2) where
  q := ![3, 5]
  two_le := by decide
  coprime i j other := by fin_cases i <;> fin_cases j <;> first | exact absurd rfl other | decide

end MultiKeyFHE
