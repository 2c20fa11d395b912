import Mathlib.Data.List.Infix
import MultiKeyFHE.Params.UniEnc
import MultiKeyFHE.Library.Rotation

/-!
# Restoring the accumulator parameters

`load` overwrites the saved members of its target and then lets `PreCompute` append to the tables the
target already has. The members that `save` skips keep the target's values.
-/

namespace MultiKeyFHE
open Negacyclic NegPoly NativeInteger

theorem prefix_iff_reads {α : Type} {table l : List α} :
    table <+: l ↔ ∀ i, i < table.length → l[i]? = table[i]? := by
  rw [List.prefix_iff_getElem?]
  constructor
  · intro h i hi
    rw [h i hi, List.getElem?_eq_getElem hi]
  · intro h i hi
    rw [h i hi, List.getElem?_eq_getElem hi]

/-- Appending a table whose first entry does not occur again leaves the table in front only if there was
nothing before it, or already the table. -/
theorem prefix_append_iff {α : Type} {table l : List α}
    (once : ∀ i, 0 < i → i < table.length → table[i]? ≠ table[0]?) :
    table <+: l ++ table ↔ l = [] ∨ table <+: l := by
  constructor
  · intro h
    by_cases empty : l = []
    · exact .inl empty
    · right
      have pos : 0 < l.length := List.length_pos_iff.mpr empty
      by_cases long : table.length ≤ l.length
      · exact List.prefix_of_prefix_length_le h (List.prefix_append _ _) long
      · have read := prefix_iff_reads.mp h l.length (by omega)
        rw [List.getElem?_append_right (le_refl _), Nat.sub_self] at read
        exact absurd read.symm (once _ pos (by omega))
  · rintro (rfl | h)
    · exact List.prefix_refl _
    · exact h.trans (List.prefix_append _ _)

namespace UniEncCryptoParams
open Gadget
variable {w : NativeSize} {p t t' : UniEncCryptoParams} {plat : Platform}

/-- Parameters whose own reads are the intended ones: the digits stay below the modulus and the tables
start with the powers of the base and with `X ^ i - 1`. -/
structure Sound (w : NativeSize) (p : UniEncCryptoParams) : Prop where
  digits : p.digitsG ≠ 0 → 2 ≤ p.baseG ∧ p.baseG ^ (p.digitsG - 1) < p.Q
  modulus : p.N ≠ 0 → 2 < p.Q ∧ 2 * p.Q ≤ 2 ^ w.bits
  gpower : gpowerTable p.baseG p.Q p.digitsG <+: p.Gpower
  monomials : monomialTable w p.N p.Q <+: p.monomials

/-- What the accumulators and `MKKeyGen` read from `t'` is what they read from `p`. -/
structure Restored (p t' : UniEncCryptoParams) : Prop where
  N : t'.N = p.N
  Q : t'.Q = p.Q
  k : t'.k = p.k
  baseG : t'.baseG = p.baseG
  digitsG : t'.digitsG = p.digitsG
  polyParams : t'.polyParams = p.polyParams
  gpower : ∀ i, i < p.digitsG → t'.Gpower[i]? = some (p.baseG ^ i % p.Q) ∧ t'.Gpower[i]? = p.Gpower[i]?
  monomial : ∀ i, i < 2 * p.N →
    t'.monomials[i]?.map PolyValues.toPoly = some (mono i - 1 : NativePoly p.N p.Q) ∧
      t'.monomials[i]? = p.monomials[i]?
  CRS : t'.CRS = p.CRS
  dggStd : t'.dggStd = p.dggStd
  dggRStd : t'.dggRStd = p.dggRStd
  keyDist : t'.keyDist = p.keyDist

/-- The targets that `load` can restore `p` into. The skipped members already agree, and each table is
empty, so that `PreCompute` fills it, or already starts with the right entries. -/
structure Ready (w : NativeSize) (p t : UniEncCryptoParams) : Prop where
  CRS : t.CRS = p.CRS
  dggRStd : t.dggRStd = p.dggRStd
  keyDist : t.keyDist = p.keyDist
  gpower : t.Gpower = [] ∨ gpowerTable p.baseG p.Q p.digitsG <+: t.Gpower
  monomials : (p.method.usesMonomials = true ∧ t.monomials = []) ∨ monomialTable w p.N p.Q <+: t.monomials

theorem Sound.gpower_get (sound : p.Sound w) {i : ℕ} (hi : i < p.digitsG) :
    (gpowerTable p.baseG p.Q p.digitsG)[i]? = some (p.baseG ^ i % p.Q) := by
  obtain ⟨hG, hpow⟩ := sound.digits (by omega)
  by_cases one : 1 < p.Q
  · exact gpowerTable_get hi one
  · have : 0 < p.baseG ^ (p.digitsG - 1) := Nat.pow_pos (by omega)
    omega

theorem Sound.gpower_once (sound : p.Sound w) (i : ℕ) (pos : 0 < i)
    (hi : i < (gpowerTable p.baseG p.Q p.digitsG).length) :
    (gpowerTable p.baseG p.Q p.digitsG)[i]? ≠ (gpowerTable p.baseG p.Q p.digitsG)[0]? := by
  rw [gpowerTable_length] at hi
  obtain ⟨hG, hpow⟩ := sound.digits (by omega)
  have small : p.baseG ^ i < p.Q :=
    (Nat.pow_le_pow_right (by omega) (by omega : i ≤ p.digitsG - 1)).trans_lt hpow
  have large : 1 < p.baseG ^ i := Nat.one_lt_pow (by omega) (by omega)
  rw [sound.gpower_get hi, sound.gpower_get (by omega), pow_zero, Nat.mod_eq_of_lt small,
    Nat.mod_eq_of_lt (by omega)]
  intro same
  have := Option.some.inj same
  omega

theorem Sound.monomial_get (sound : p.Sound w) {i : ℕ} (hi : i < 2 * p.N) :
    (monomialTable w p.N p.Q)[i]?.map PolyValues.toPoly = some (mono i - 1 : NativePoly p.N p.Q) := by
  obtain ⟨hQ, hw⟩ := sound.modulus (by omega)
  obtain ⟨a, ha, hpoly⟩ := monomialTable_toPoly (w := w) hQ hw hi
  rw [ha, Option.map_some, hpoly]

theorem Sound.monomial_once (sound : p.Sound w) (i : ℕ) (pos : 0 < i)
    (hi : i < (monomialTable w p.N p.Q).length) :
    (monomialTable w p.N p.Q)[i]? ≠ (monomialTable w p.N p.Q)[0]? := by
  rw [monomialTable_length] at hi
  obtain ⟨hQ, -⟩ := sound.modulus (by omega)
  have : NeZero p.N := ⟨by omega⟩
  have : Fact (2 < p.Q) := ⟨hQ⟩
  have : Fact (1 < p.Q) := ⟨by omega⟩
  intro same
  have poly := congrArg (Option.map (PolyValues.toPoly (N := p.N) (Q := p.Q))) same
  rw [sound.monomial_get hi, sound.monomial_get (by omega), mono_zero, sub_self] at poly
  have one := sub_eq_zero.mp (Option.some.inj poly)
  have dvd := two_mul_dvd_of_mono_eq_one (ZMod.neg_one_ne_one).symm one
  have := Nat.le_of_dvd pos dvd
  omega

theorem construct_sound {polyParams : ILNativeParams} {draw : PolyValues}
    {k N Q q baseG baseR numAutoKeys : ℕ} {method : Method} {keyDist : SecretKeyDist}
    (h : construct w plat polyParams draw k N Q q baseG baseR method keyDist false numAutoKeys = .ok p)
    (uses : method.usesMonomials = true) (hG : 2 ≤ baseG) (hpow : baseG ^ (plat.digitCount Q baseG - 1) < Q)
    (hQ : 2 < Q) (hw : 2 * Q ≤ 2 ^ w.bits) : p.Sound w := by
  obtain ⟨⟨-, -, sameQ, sameG, sameD, -⟩, gpower, monomials, -⟩ := construct_ok h uses
  refine ⟨fun _ => ?_, fun _ => ?_, ?_, ?_⟩
  · rw [sameG, sameD, sameQ]
    exact ⟨hG, hpow⟩
  · rw [sameQ]
    exact ⟨hQ, hw⟩
  · rw [gpower]
  · rw [monomials]

theorem default_sound : default.Sound w :=
  ⟨fun h => absurd rfl h, fun h => absurd rfl h, List.nil_prefix, List.nil_prefix⟩

theorem load_save (t p : UniEncCryptoParams) :
    load w plat t (save p) = .ok { t with
      k := p.k, N := p.N, Q := p.Q, q := p.q, baseR := p.baseR, baseG := p.baseG, method := p.method
      dggStd := p.dggStd, digitsG := p.digitsG, polyParams := p.polyParams, numAutoKeys := p.numAutoKeys
      Gpower := t.Gpower ++ gpowerTable p.baseG p.Q p.digitsG
      monomials := t.monomials ++ if p.method.usesMonomials then monomialTable w p.N p.Q else [] } := rfl

theorem reads_gpower_iff (sound : p.Sound w) {l : List ℕ} :
    (∀ i, i < p.digitsG → l[i]? = some (p.baseG ^ i % p.Q) ∧ l[i]? = p.Gpower[i]?) ↔
      gpowerTable p.baseG p.Q p.digitsG <+: l := by
  have own := prefix_iff_reads.mp sound.gpower
  rw [prefix_iff_reads]
  simp only [gpowerTable_length] at own ⊢
  constructor
  · intro h i hi
    rw [(h i hi).1, sound.gpower_get hi]
  · intro h i hi
    exact ⟨(h i hi).trans (sound.gpower_get hi), (h i hi).trans (own i hi).symm⟩

theorem reads_monomial_iff (sound : p.Sound w) {l : List PolyValues} :
    (∀ i, i < 2 * p.N → l[i]?.map PolyValues.toPoly = some (mono i - 1 : NativePoly p.N p.Q) ∧
      l[i]? = p.monomials[i]?) ↔ monomialTable w p.N p.Q <+: l := by
  have own := prefix_iff_reads.mp sound.monomials
  rw [prefix_iff_reads]
  simp only [monomialTable_length] at own ⊢
  constructor
  · intro h i hi
    exact (h i hi).2.trans (own i hi)
  · intro h i hi
    exact ⟨by rw [h i hi, sound.monomial_get hi], (h i hi).trans (own i hi).symm⟩

theorem gpower_appended_iff (sound : p.Sound w) :
    gpowerTable p.baseG p.Q p.digitsG <+: t.Gpower ++ gpowerTable p.baseG p.Q p.digitsG ↔
      t.Gpower = [] ∨ gpowerTable p.baseG p.Q p.digitsG <+: t.Gpower :=
  prefix_append_iff sound.gpower_once

theorem monomials_appended_iff (sound : p.Sound w) :
    (monomialTable w p.N p.Q <+:
      t.monomials ++ if p.method.usesMonomials then monomialTable w p.N p.Q else []) ↔
      (p.method.usesMonomials = true ∧ t.monomials = []) ∨ monomialTable w p.N p.Q <+: t.monomials := by
  by_cases uses : p.method.usesMonomials = true
  · rw [if_pos uses, prefix_append_iff sound.monomial_once]
    simp [uses]
  · rw [if_neg uses, List.append_nil]
    simp [uses]

/-- `load` of what `save` wrote restores `p` in exactly the targets that are ready for it. -/
theorem load_restores_iff (sound : p.Sound w) :
    (∃ t', load w plat t (save p) = .ok t' ∧ Restored p t') ↔ Ready w p t := by
  constructor
  · rintro ⟨t', loaded, restored⟩
    rw [load_save] at loaded
    cases loaded
    exact {
      CRS := restored.CRS
      dggRStd := restored.dggRStd
      keyDist := restored.keyDist
      gpower := (gpower_appended_iff sound).mp ((reads_gpower_iff sound).mp restored.gpower)
      monomials := (monomials_appended_iff sound).mp ((reads_monomial_iff sound).mp restored.monomial) }
  · intro ready
    refine ⟨_, load_save t p, ?_⟩
    exact {
      N := rfl
      Q := rfl
      k := rfl
      baseG := rfl
      digitsG := rfl
      polyParams := rfl
      gpower := (reads_gpower_iff sound).mpr ((gpower_appended_iff sound).mpr ready.gpower)
      monomial := (reads_monomial_iff sound).mpr ((monomials_appended_iff sound).mpr ready.monomials)
      CRS := ready.CRS
      dggStd := rfl
      dggRStd := ready.dggRStd
      keyDist := ready.keyDist }

def constructSmall : Except Fault UniEncCryptoParams :=
  construct .w64 .threeDigits ⟨8, 17, 2⟩ ⟨17, [1, 0, 0, 0]⟩ 2 4 17 8 4 2 .MKNTRU .UNIFORM_TERNARY false 0

theorem constructSmall_restored_with_CRS : ∃ p t', constructSmall = .ok p ∧
    load .w64 .threeDigits { default with CRS := p.CRS, dggRStd := p.dggRStd } (save p) = .ok t' ∧
    Restored p t' := by
  have sound := construct_sound (show constructSmall = .ok _ from rfl) rfl (by decide) (by decide)
    (by decide) (by decide)
  obtain ⟨t', loaded, restored⟩ := (@load_restores_iff _ _ { default with CRS := _, dggRStd := _ }
    .threeDigits sound).mpr ⟨rfl, rfl, rfl, .inl rfl, .inl ⟨rfl, rfl⟩⟩
  exact ⟨_, t', rfl, loaded, restored⟩

theorem constructSmall_not_restored_by_default : ∃ p, constructSmall = .ok p ∧
    ¬ ∃ t', load .w64 .threeDigits default (save p) = .ok t' ∧ Restored p t' := by
  refine ⟨_, rfl, ?_⟩
  rintro ⟨t', loaded, restored⟩
  cases loaded
  cases restored.CRS

end UniEncCryptoParams
end MultiKeyFHE
