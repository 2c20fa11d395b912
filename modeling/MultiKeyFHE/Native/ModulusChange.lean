import MultiKeyFHE.Native.WordVector
import Mathlib.Data.Nat.Bitwise

/-!
# Changing the modulus of a native vector

`SwitchModulus`, `Mod` and `ModEq` carry the same loop, which keeps the representative around zero of every entry. For the
modulus two the last two flip a bit instead, which is right for an odd modulus only.
-/

namespace MultiKeyFHE
open NativeInteger NativeVector

namespace WordVector
variable (w : NativeSize)

/-- One entry of `ModByTwo`. -/
def bitOfEntry (om v : ℕ) : ℕ := 0x1 &&& (v ^^^ (if v > om / 2 then 1 else 0))

def modByTwo (a : WordVector) : WordVector := { a with values := a.values.map (bitOfEntry a.modulus) }

def modByTwoEq (a : WordVector) : WordVector := { a with values := a.values.map (bitOfEntry a.modulus) }

/-- The loop of `SwitchModulus` without the new modulus. -/
def mod (a : WordVector) (modulus : ℕ) : Except Fault WordVector :=
  if modulus = 2 then .ok (modByTwoEq a)
  else if modulus = 0 then .error .divisionByZero
  else .ok { a with values := a.values.map (NativeVector.switchModulus w a.modulus modulus) }

def modEq (a : WordVector) (modulus : ℕ) : Except Fault WordVector :=
  if modulus = 2 then .ok (modByTwoEq a)
  else if modulus = 0 then .error .divisionByZero
  else .ok { a with values := a.values.map (NativeVector.switchModulus w a.modulus modulus) }

variable {w} {a : WordVector} {om nm v : ℕ}

/-! ### One entry -/

theorem residue_eq_of_modEq {x M : ℕ} {c : ℤ} (below : x < M) (same : (x : ℤ) ≡ c [ZMOD M]) : residue M c = x := by
  unfold residue
  rw [← same, Int.emod_eq_of_lt (Int.natCast_nonneg x) (by exact_mod_cast below), Int.toNat_natCast]

theorem switchModulus_eq_residue (hv : v < om) (pos : 0 < nm) (word : om + nm ≤ 2 ^ w.bits) :
    NativeVector.switchModulus w om nm v = residue nm (centered om v) := by
  symm
  apply residue_eq_of_modEq
  · exact switchModulus_lt hv pos (by omega)
  · exact switchModulus_cast hv pos word

theorem switchModulus_self (hv : v < om) (word : om + om ≤ 2 ^ w.bits) : NativeVector.switchModulus w om om v = v := by
  unfold NativeVector.switchModulus
  rw [if_neg (lt_irrefl om), Nat.mod_self, Nat.sub_zero]
  by_cases upper : v > om / 2
  · simp only [if_pos upper]
    rw [wrap_of_lt (by omega), if_pos (by omega), Nat.add_mod_right, Nat.mod_eq_of_lt hv]
  · simp only [if_neg upper]
    rw [if_neg (by omega)]

/-- An entry of the upper half goes to the upper half. -/
theorem centered_switchModulus (hv : v < om) (le : om ≤ nm) (word : om + nm ≤ 2 ^ w.bits) :
    centered nm (NativeVector.switchModulus w om nm v) = centered om v := by
  rcases le.lt_or_eq with less | rfl
  · unfold NativeVector.switchModulus centered
    simp only [if_pos less]
    by_cases upper : v > om / 2
    · rw [if_pos upper, if_pos upper, wrap_of_lt (by omega), if_pos (by omega)]
      omega
    · rw [if_neg upper, if_neg upper, if_neg (by omega)]
  · rw [switchModulus_self hv word]

theorem switchModulus_back (hv : v < om) (le : om ≤ nm) (word : om + nm ≤ 2 ^ w.bits) :
    NativeVector.switchModulus w nm om (NativeVector.switchModulus w om nm v) = v := by
  have inside := switchModulus_lt hv (show 0 < nm by omega) (w := w) (by omega)
  rw [switchModulus_eq_residue inside (by omega) (by omega), centered_switchModulus hv le word]
  exact residue_eq_of_modEq hv (centered_modEq om v).symm

/-- Modulo two nothing wraps for any modulus that is a word. -/
theorem switchModulus_two (h2 : 2 ≤ om) (word : om < 2 ^ w.bits) (hv : v < om) :
    NativeVector.switchModulus w om 2 v = residue 2 (centered om v) := by
  have even : 2 ^ w.bits % 2 = 0 := by cases w <;> rfl
  have reduce : ∀ x : ℕ, (if x ≥ 2 then x % 2 else x) = x % 2 := by
    intro x
    split <;> omega
  unfold NativeVector.switchModulus residue centered
  simp only [if_neg (show ¬ 2 > om by omega), reduce]
  split
  · rw [wrap_of_lt (by omega)]
    omega
  · omega

/-- The flipped bit is the one of `v - om` just where `om` is odd. -/
theorem bitOfEntry_eq_iff : bitOfEntry om v = residue 2 (centered om v) ↔ om % 2 = 1 ∨ v ≤ om / 2 := by
  have bit : bitOfEntry om v = (v + if v > om / 2 then 1 else 0) % 2 := by
    rw [bitOfEntry, Nat.and_comm, Nat.and_one_is_mod, Nat.xor_mod_two_eq]
  rw [bit]
  unfold residue centered
  split <;> omega

/-! ### Vectors -/

theorem switchModulus_values (pos : 0 < nm) (admitted : ¬ modulusTooLarge w nm) :
    a.switchModulus w nm = .ok ⟨a.values.map (NativeVector.switchModulus w a.modulus nm), nm⟩ := by
  rw [switchModulus, setModulus, if_neg admitted]
  simp [pos.ne']

/-- `SetModulus` throws before an entry is touched. -/
theorem switchModulus_tooLarge (large : modulusTooLarge w nm) :
    a.switchModulus w nm =
      .error (.notAvailableError ("NativeVectorT supports only modulus size <=  " ++ toString w.maxModulusSize ++ " bits")) := by
  rw [switchModulus, setModulus, if_pos large]
  rfl

/-- The entries of the vector modulo `nm` are what their representatives around zero leave there, a larger modulus loses
nothing, and the three functions agree. -/
structure KeepsCenter (w : NativeSize) (a : WordVector) (nm : ℕ) : Prop where
  entries : a.modulus + nm < 2 ^ w.bits →
    a.switchModulus w nm = .ok ⟨a.values.map fun v => residue nm (centered a.modulus v), nm⟩
  back : a.modulus + nm < 2 ^ w.bits → a.modulus ≤ nm →
    ∃ b, a.switchModulus w nm = .ok b ∧ b.switchModulus w a.modulus = .ok a
  alike : 2 < nm → ∃ b r, a.switchModulus w nm = .ok b ∧ a.mod w nm = .ok r ∧ a.modEq w nm = .ok r ∧ r.values = b.values

theorem keepsCenter_of_admitted (h2 : 2 ≤ a.modulus) (hn : 2 ≤ nm) (admitted : ¬ modulusTooLarge w nm) (ha : a.Reduced) :
    KeepsCenter w a nm := by
  have switched := switchModulus_values (a := a) (show 0 < nm by omega) admitted
  constructor
  · intro word
    rw [switched]
    refine congrArg Except.ok (congrArg (WordVector.mk · nm) (List.map_congr_left fun v hv => ?_))
    exact switchModulus_eq_residue (ha v hv) (by omega) word.le
  · intro word le
    have smaller : ¬ modulusTooLarge w a.modulus := fun large => admitted (large.trans_le (Nat.size_le_size le))
    refine ⟨_, switched, ?_⟩
    rw [switchModulus_values (show 0 < a.modulus by omega) smaller, List.map_map]
    have same : ∀ v ∈ a.values, (NativeVector.switchModulus w nm a.modulus ∘ NativeVector.switchModulus w a.modulus nm) v = v :=
      fun v hv => switchModulus_back (ha v hv) le word.le
    rw [List.map_congr_left same, List.map_id']
  · intro more
    refine ⟨_, { a with values := a.values.map (NativeVector.switchModulus w a.modulus nm) }, switched, ?_, ?_, rfl⟩
    · rw [mod, if_neg (by omega), if_neg (by omega)]
    · rw [modEq, if_neg (by omega), if_neg (by omega)]

theorem switchModulus_keeps_center (h2 : 2 ≤ a.modulus) (hn : 2 ≤ nm) (ha : a.Reduced) :
    (¬ modulusTooLarge w nm → KeepsCenter w a nm) ∧
      (modulusTooLarge w nm → a.switchModulus w nm =
        .error (.notAvailableError ("NativeVectorT supports only modulus size <=  " ++ toString w.maxModulusSize ++ " bits"))) :=
  ⟨fun admitted => keepsCenter_of_admitted h2 hn admitted ha, switchModulus_tooLarge⟩

/-- Five bits, and sixty-one. -/
theorem seven_keeps_center :
    KeepsCenter .w64 ⟨[0, 3, 4, 6], 7⟩ 16 ∧
      switchModulus .w64 ⟨[0, 3, 4, 6], 7⟩ (2 ^ 60) =
        .error (.notAvailableError "NativeVectorT supports only modulus size <=  60 bits") := by
  have large : modulusTooLarge .w64 (2 ^ 60) := by
    rw [modulusTooLarge, Nat.size_pow]
    decide
  constructor
  · exact (switchModulus_keeps_center (by decide) (by decide) (by decide)).1 (by decide)
  · exact (switchModulus_keeps_center (by decide) (by decide) (by decide)).2 large

/-- The guard of `SetModulus`. -/
theorem sixty_one_bits_refused : 2 + 2 ^ 60 < 2 ^ NativeSize.w64.bits ∧ ¬ KeepsCenter .w64 ⟨[0, 1], 2⟩ (2 ^ 60) := by
  refine ⟨by decide, fun keeps => ?_⟩
  have large : modulusTooLarge .w64 (2 ^ 60) := by
    rw [modulusTooLarge, Nat.size_pow]
    decide
  have returned := keeps.entries (by decide)
  rw [switchModulus, setModulus, if_pos large] at returned
  cases returned

/-- Taking a vector modulo two leaves the parities of the representatives around zero, by all of the functions. -/
structure ParitiesAgree (w : NativeSize) (a : WordVector) : Prop where
  switched : ∃ b, a.switchModulus w 2 = .ok b ∧ b.values = a.values.map fun v => residue 2 (centered a.modulus v)
  modByTwo : a.modByTwo.values = a.values.map fun v => residue 2 (centered a.modulus v)
  mod : ∃ r, a.mod w 2 = .ok r ∧ r.values = a.values.map fun v => residue 2 (centered a.modulus v)
  modEq : ∃ r, a.modEq w 2 = .ok r ∧ r.values = a.values.map fun v => residue 2 (centered a.modulus v)

theorem parities_agree_iff (h2 : 2 ≤ a.modulus) (word : a.modulus < 2 ^ w.bits) (ha : a.Reduced) :
    ParitiesAgree w a ↔ a.modulus % 2 = 1 ∨ ∀ v ∈ a.values, v ≤ a.modulus / 2 := by
  have entries : a.modByTwo.values = (a.values.map fun v => residue 2 (centered a.modulus v)) ↔
      a.modulus % 2 = 1 ∨ ∀ v ∈ a.values, v ≤ a.modulus / 2 := by
    unfold modByTwo
    rw [List.map_inj_left]
    simp only [bitOfEntry_eq_iff]
    by_cases odd : a.modulus % 2 = 1 <;> simp [odd]
  have admitted : ¬ modulusTooLarge w 2 := by
    cases w <;> decide
  rw [← entries]
  refine ⟨fun agree => agree.modByTwo, fun same => ⟨?_, same, ?_, ?_⟩⟩
  · refine ⟨_, switchModulus_values two_pos admitted, ?_⟩
    apply List.map_congr_left
    intro v hv
    exact switchModulus_two h2 word (ha v hv)
  · exact ⟨_, rfl, same⟩
  · exact ⟨_, rfl, same⟩

theorem seven_parities_agree : ParitiesAgree .w64 ⟨[0, 3, 4, 6], 7⟩ :=
  (parities_agree_iff (by decide) (by decide) (by decide)).mpr (.inl (by decide))

/-- Three is minus one modulo four. -/
theorem three_modulo_four : ¬ ParitiesAgree .w64 ⟨[3], 4⟩ := by
  intro agree
  exact absurd agree.modByTwo (by decide)

end WordVector
end MultiKeyFHE
