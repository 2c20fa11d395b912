import MultiKeyFHE.Params.Scheme
import MultiKeyFHE.Serial.Transfer

/-!
# Copies of scheme parameters

The special members and `save` / `load` of `MNTRUCryptoParams` and `MKLWECryptoParams`, which list the members by hand
in the same way. The copies and assignments leave out the modulus, the deviation and the generator of key switching and
the key distribution, and `load` leaves out the last of these.
-/

namespace MultiKeyFHE.MultiUserParams
variable (log2 : ℚ → ℚ)

/-- `SetStd`, which checks the deviation that the generator has and not the one that it is to have. -/
def setStd (old new : ℚ) : Except Fault ℚ :=
  if log2 old > 59 then .error (.configError "Standard deviation cannot exceed 59 bits") else .ok new

/-- The assignments. The move forms have the same bodies. -/
def assign (target rhs : MultiUserParams) : Except Fault MultiUserParams := do
  let dggStd ← setStd log2 target.dggStd rhs.dggStd
  return { target with k := rhs.k, q := rhs.q, Q := rhs.Q, n := rhs.n, N := rhs.N, baseKS := rhs.baseKS, dggStd }

/-- The copy and move constructors, which initialise the same members of a new object. -/
def copy (rhs : MultiUserParams) : Except Fault MultiUserParams := assign log2 default rhs

/-- `load` with the checks of the two `SetStd`. -/
def loadInto (target : MultiUserParams) (ar : ℕ × ℕ × LWECryptoParams.Archive) : Except Fault MultiUserParams := do
  let loaded ← target.load ar
  let dggStd ← setStd log2 target.dggStd loaded.dggStd
  let ksDggStd ← setStd log2 target.ksDggStd loaded.ksDggStd
  return { loaded with dggStd, ksDggStd }

def transfer (p : MultiUserParams) : Transfer MultiUserParams → Except Fault MultiUserParams
  | .copy => copy log2 p
  | .assign target => assign log2 target p
  | .saveLoad target => loadInto log2 target p.save

/-- The target of the transfer has what the transfer leaves out, and its deviations let themselves be changed. -/
def Keeps (p : MultiUserParams) : Transfer MultiUserParams → Prop
  | .copy => p.qKS = 0 ∧ p.ksDggStd = 2 ∧ p.keyDist = .UNIFORM_TERNARY
  | .assign target => log2 target.dggStd ≤ 59 ∧ target.qKS = p.qKS ∧ target.ksDggStd = p.ksDggStd ∧
      target.keyDist = p.keyDist
  | .saveLoad target => log2 target.dggStd ≤ 59 ∧ log2 target.ksDggStd ≤ 59 ∧ target.keyDist = p.keyDist

instance (p : MultiUserParams) : ∀ t, Decidable (Keeps log2 p t)
  | .copy => inferInstanceAs (Decidable (_ ∧ _ ∧ _))
  | .assign _ => inferInstanceAs (Decidable (_ ∧ _ ∧ _ ∧ _))
  | .saveLoad _ => inferInstanceAs (Decidable (_ ∧ _ ∧ _))

variable {log2} {p target : MultiUserParams} {new : ℚ}

theorem setStd_ok_iff {old a : ℚ} : setStd log2 old new = .ok a ↔ log2 old ≤ 59 ∧ a = new := by
  unfold setStd
  split
  · rename_i large
    exact iff_of_false (by simp) fun both => absurd both.1 (not_le.mpr large)
  · rename_i small
    simp [not_lt.mp small, eq_comm]

theorem assign_eq_iff : assign log2 target p = .ok p ↔
    log2 target.dggStd ≤ 59 ∧ target.qKS = p.qKS ∧ target.ksDggStd = p.ksDggStd ∧ target.keyDist = p.keyDist := by
  constructor
  · intro run
    obtain ⟨std, set, run⟩ := Run.bind_ok run
    obtain ⟨small, rfl⟩ := setStd_ok_iff.mp set
    have same := Except.ok.inj run
    exact ⟨small, congrArg (·.qKS) same, congrArg (·.ksDggStd) same, congrArg (·.keyDist) same⟩
  · rintro ⟨small, qKS, ksDggStd, keyDist⟩
    rw [assign, setStd_ok_iff.mpr ⟨small, rfl⟩, qKS, ksDggStd, keyDist]
    rfl

theorem loadInto_eq_iff : loadInto log2 target p.save = .ok p ↔
    log2 target.dggStd ≤ 59 ∧ log2 target.ksDggStd ≤ 59 ∧ target.keyDist = p.keyDist := by
  have read : target.load p.save = .ok { p with keyDist := target.keyDist } := rfl
  constructor
  · intro run
    obtain ⟨loaded, got, run⟩ := Run.bind_ok run
    obtain rfl := Except.ok.inj (read.symm.trans got)
    obtain ⟨std, set, run⟩ := Run.bind_ok run
    obtain ⟨small, rfl⟩ := setStd_ok_iff.mp set
    obtain ⟨std, set, run⟩ := Run.bind_ok run
    obtain ⟨small', rfl⟩ := setStd_ok_iff.mp set
    exact ⟨small, small', congrArg (·.keyDist) (Except.ok.inj run)⟩
  · rintro ⟨small, small', keyDist⟩
    rw [loadInto, read, keyDist]
    dsimp only [bind, Except.bind]
    rw [setStd_ok_iff.mpr ⟨small, rfl⟩]
    dsimp only
    rw [setStd_ok_iff.mpr ⟨small', rfl⟩]
    rfl

variable (log2) in
/-- After every step of a composition the object has the members of the first one. -/
def Preserved (p : MultiUserParams) (steps : List (Transfer MultiUserParams)) : Prop :=
  ∀ done, done <+: steps → done.foldlM (transfer log2) p = .ok p

section Compositions
variable (two : log2 2 = 1)
include two

theorem transfer_eq_iff (t : Transfer MultiUserParams) : transfer log2 p t = .ok p ↔ Keeps log2 p t := by
  cases t with
  | copy =>
    have admitted : log2 default.dggStd ≤ 59 := by
      rw [show default.dggStd = 2 from rfl, two]
      norm_num
    refine assign_eq_iff.trans ⟨fun ⟨_, qKS, std, dist⟩ => ⟨qKS.symm, std.symm, dist.symm⟩, ?_⟩
    rintro ⟨qKS, std, dist⟩
    exact ⟨admitted, qKS.symm, std.symm, dist.symm⟩
  | assign target => exact assign_eq_iff
  | saveLoad target => exact loadInto_eq_iff

/-- Exactly when each target has the members that its step leaves out. -/
theorem composition_preserves_iff (p : MultiUserParams) (steps : List (Transfer MultiUserParams)) :
    Preserved log2 p steps ↔ ∀ t ∈ steps, Keeps log2 p t := by
  unfold Preserved
  rw [Run.foldlM_fixed_iff]
  exact forall₂_congr fun t _ => transfer_eq_iff two t

end Compositions

/-! ### Parameters with a modulus for key switching -/

/-- Exact on powers of two, of which all deviations here are. -/
def wholeLog2 (x : ℚ) : ℚ := Nat.log 2 x.floor.toNat

/-- What a context of two users is made of, with the deviation four. -/
def twoUsers : MultiUserParams := ⟨⟨2 ^ 10, 2 ^ 25, 2 ^ 14, 512, 1024, 32, .BINARY, 4, 4⟩, 2⟩

theorem wholeLog2_two : wholeLog2 2 = 1 := by decide +kernel

theorem twoUsers_preserved : Preserved wholeLog2 twoUsers [.saveLoad twoUsers, .assign twoUsers] :=
  (composition_preserves_iff wholeLog2_two twoUsers _).mpr (by decide +kernel)

/-- An object that the constructor makes, and its copy. -/
theorem copy_changes_twoUsers :
    constructFor .w32 "MNTRU" 2 512 1024 (2 ^ 10) (2 ^ 25) (2 ^ 14) 4 32 .BINARY = .ok twoUsers ∧
      ¬ Preserved wholeLog2 twoUsers [.copy] :=
  ⟨by decide +kernel, fun same => absurd (same [.copy] (List.prefix_refl _)) (by decide +kernel)⟩

end MultiKeyFHE.MultiUserParams
