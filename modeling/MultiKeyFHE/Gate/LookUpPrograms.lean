import MultiKeyFHE.Gate.LookUpNoise
import MultiKeyFHE.NumberTheory.IntType

/-!
# Programs of table look-ups

`GenerateLUTviaFunction` makes a table of a function, and `EvalFunc` evaluates it on a ciphertext. With generated keys the
noise that is left lets the result be an input again, so that every sequence of tables computes the composition of the
functions.
-/

namespace MultiKeyFHE
open NativeInteger NativeVector

namespace BinFHEContext
open BinFHEScheme
variable (w : NativeSize)

/-- `GenerateLUTviaFunction` for the modulus `q` of the parameters. The size of the vector is cut to 32 bits. -/
def generateLUTviaFunction (q : ℕ) (f : ℕ → ℕ → ℕ) (p : ℕ) : Except Fault (List ℕ) := do
  if Nat.clog 2 p ≠ Nat.log 2 p then
    throw (.notImplementedError "ERROR: Only support plaintext space to be power-of-two.")
  let interval ← dividedBy q p
  (List.range (q % 2 ^ 32)).mapM fun i => do
    let temp := f (← dividedBy i interval) p
    if temp ≥ p then throw (.notImplementedError "ERROR: input function should output in Z_{p_output}.")
    return mul w temp interval

variable {w} {q p beta : ℕ} {f : ℕ → ℕ → ℕ}

/-- The table of a function that stays below `p` has the values in blocks. -/
theorem generateLUTviaFunction_ok {b : ℕ} (power : p = 2 ^ b) (size : q = p * (2 * beta)) (pos : 0 < beta)
    (narrow : q < 2 ^ 32) (into : ∀ m < p, f m p < p) :
    ∃ LUT, generateLUTviaFunction w q f p = .ok LUT ∧ BlockTable LUT q (2 * beta) ∧
      ∀ m < p, LUT.getD (m * (2 * beta)) 0 = f m p * (2 * beta) := by
  have some : 0 < p := power ▸ Nat.two_pow_pos b
  have interval : q / p = 2 * beta := by rw [size, Nat.mul_div_cancel_left _ some]
  have block : ∀ {i}, i < q → i / (2 * beta) < p := fun {i} hi => by
    rw [Nat.div_lt_iff_lt_mul (by omega), ← size]
    exact hi
  have value : ∀ {i}, i < q → f (i / (2 * beta)) p * (2 * beta) < q := fun {i} hi => by
    conv_rhs => rw [size]
    exact Nat.mul_lt_mul_of_pos_right (into _ (block hi)) (by omega)
  let entry : ℕ → ℕ := fun i => f (i / (2 * beta)) p * (2 * beta)
  have made : generateLUTviaFunction w q f p = .ok ((List.range q).map entry) := by
    have logs : ¬ Nat.clog 2 p ≠ Nat.log 2 p := by
      rw [power, Nat.clog_pow 2 b one_lt_two, Nat.log_pow one_lt_two]
      exact not_not.mpr rfl
    rw [generateLUTviaFunction, if_neg logs, dividedBy, if_neg (by omega), interval, Nat.mod_eq_of_lt narrow]
    refine Run.mapM_eq_map fun i member => ?_
    have hi := List.mem_range.mp member
    have below := into _ (block hi)
    have fits := value hi
    rw [dividedBy, if_neg (by omega)]
    dsimp only [bind, Except.bind]
    rw [if_neg (by omega), NativeInteger.mul, wrap_of_lt (fits.trans (narrow.trans_le w.two_pow_32_le))]
    rfl
  have read : ∀ {i}, i < q → ((List.range q).map entry).getD i 0 = entry i := fun {i} hi => by
    rw [List.getD_eq_getElem _ _ (by simpa using hi)]
    simp
  refine ⟨_, made, ⟨by simp, ?_, fun i hi => ?_⟩, fun m hm => ?_⟩
  · intro a member
    obtain ⟨i, hi, rfl⟩ := List.mem_map.mp member
    exact value (List.mem_range.mp hi)
  · have start : i / (2 * beta) * (2 * beta) ≤ i := Nat.div_mul_le_self _ _
    rw [read hi, read (by omega)]
    simp only [entry]
    rw [Nat.mul_div_cancel _ (by omega)]
  · have inside : m * (2 * beta) < q := by
      rw [size]
      exact Nat.mul_lt_mul_of_pos_right hm (by omega)
    rw [read inside]
    simp only [entry]
    rw [Nat.mul_div_cancel _ (by omega)]

end BinFHEContext

namespace LWEGate
open LWE BinFHEScheme BinFHEContext RingGSW Negacyclic NegPoly

/-- Tables looked up one after the other. -/
def evalFuncs {P : SingleKeyParams} (w : NativeSize) (plat : Platform) (round : FloorRound) (g : Gadget) (EK : EvalKeys P)
    (beta : ℕ) (LUTs : List (List ℕ)) (ct : LWECiphertext P.n) : Except Fault (LWECiphertext P.n) :=
  LUTs.foldlM (fun ct LUT => evalFuncWith w plat round g EK ct LUT beta) ct

section Programs
variable {P : SingleKeyParams} {w : NativeSize} {plat : Platform} {round : FloorRound} {g : Gadget} {EK : EvalKeys P}
  {s : Fin P.n → ℤ} {beta p a b : ℕ}

/-- A ciphertext of the message `m` modulo `p`, in the middle of its block up to a quarter. -/
structure Carries (s : Fin P.n → ℤ) (beta m : ℕ) (ct : LWECiphertext P.n) : Prop where
  reduced : Reduced ct
  modulus : ct.modulus = P.q
  held : ∃ e : ℤ, 2 * |e| < beta ∧ LWE.phase s ct ≡ (m * (2 * beta) : ℕ) + e [ZMOD P.q]

/-- A look-up evaluates the function on the message, whatever the class of its table. -/
theorem evalFunc_carries (power : p = 2 ^ (b + 1)) (size : P.q = p * (2 * beta)) (pos : 0 < beta) (small : P.q ≤ P.N)
    (room : ¬ modulusTooLarge w (2 * P.N)) (boots : BootstrapsTo (LWEGate.bootstrapFunc w plat round g EK) s beta P.q)
    (bootsDouble : BootstrapsTo (LWEGate.bootstrapFunc w plat round g EK) s beta (2 * P.q)) {LUT : List ℕ}
    (table : BlockTable LUT P.q (2 * beta)) {m : ℕ} (hm : m < p) {ct : LWECiphertext P.n} (carries : Carries s beta m ct)
    {value : ℕ} (entry : LUT.getD (m * (2 * beta)) 0 = value * (2 * beta)) :
    ∃ ct', evalFuncWith w plat round g EK ct LUT beta = .ok ct' ∧ Carries s beta value ct' := by
  obtain ⟨reduced, modulus, e, he, held⟩ := carries
  have word := lt_of_not_tooLarge room
  have even : p = 2 * 2 ^ b := by rw [power, pow_succ']
  have two : 2 ≤ p := by have := Nat.two_pow_pos b; omega
  have long : 2 * (2 * beta) ≤ P.q := size ▸ Nat.mul_le_mul_right _ two
  rw [← modulus] at size small boots bootsDouble table held long
  obtain ⟨ct', noise, run, reduced', modulus', small', held'⟩ : FindsNear s ct.modulus beta (LUT.getD (m * (2 * beta)) 0)
      (evalFunc w P.N (LWEGate.bootstrapFunc w plat round g EK) ct LUT beta) := by
    rcases exists_kind (w := w) (by rw [table.length]; omega) table.lt (by omega) with ⟨kind, changes⟩ | ⟨kind, repeats⟩ | ⟨kind, -⟩
    · exact evalFunc_changing reduced (by omega) table hm he held boots size kind changes
    · exact evalFunc_repeating reduced (by omega) table hm he held boots even size kind repeats
    · exact evalFunc_doubled reduced (by omega) table hm he held bootsDouble size kind (by omega) small room
  rw [entry, modulus] at held'
  exact ⟨ct', run, reduced', modulus'.trans modulus, noise, small', held'⟩

/-- One function after the other. -/
def compose (p : ℕ) (fs : List (ℕ → ℕ → ℕ)) (m : ℕ) : ℕ := fs.foldl (fun m f => f m p) m

theorem compose_lt {fs : List (ℕ → ℕ → ℕ)} (into : ∀ f ∈ fs, ∀ m < p, f m p < p) {m : ℕ} (hm : m < p) : compose p fs m < p := by
  induction fs generalizing m with
  | nil => exact hm
  | cons f rest ih => exact ih (fun f' member => into f' (List.mem_cons_of_mem _ member)) (into f (List.mem_cons_self ..) m hm)

theorem evalFuncs_carries (power : p = 2 ^ (b + 1)) (size : P.q = p * (2 * beta)) (pos : 0 < beta) (small : P.q ≤ P.N)
    (room : ¬ modulusTooLarge w (2 * P.N)) (narrow : P.q < 2 ^ 32)
    (boots : BootstrapsTo (LWEGate.bootstrapFunc w plat round g EK) s beta P.q)
    (bootsDouble : BootstrapsTo (LWEGate.bootstrapFunc w plat round g EK) s beta (2 * P.q)) {fs : List (ℕ → ℕ → ℕ)}
    (into : ∀ f ∈ fs, ∀ m < p, f m p < p) {m : ℕ} (hm : m < p) {ct : LWECiphertext P.n} (carries : Carries s beta m ct) :
    ∃ LUTs out, (fs.mapM fun f => generateLUTviaFunction w P.q f p) = .ok LUTs ∧
      evalFuncs w plat round g EK beta LUTs ct = .ok out ∧ Carries s beta (compose p fs m) out := by
  induction fs generalizing m ct with
  | nil => exact ⟨[], ct, rfl, rfl, carries⟩
  | cons f rest ih =>
    have here := into f (List.mem_cons_self ..)
    obtain ⟨LUT, made, table, entries⟩ := generateLUTviaFunction_ok (w := w) power size pos narrow here
    obtain ⟨ct', run, carries'⟩ := evalFunc_carries power size pos small room boots bootsDouble table hm carries (entries m hm)
    obtain ⟨LUTs, out, madeRest, runRest, carriesRest⟩ := ih (fun f' member => into f' (List.mem_cons_of_mem _ member))
      (here m hm) carries'
    refine ⟨LUT :: LUTs, out, ?_, Run.foldlM_cons_ok run runRest, carriesRest⟩
    rw [List.mapM_cons, made, madeRest]
    rfl

end Programs

section Generated
variable {p : RingGSWCryptoParams} [NeZero p.N] [NeZero p.q] {n qKS baseKS : ℕ} {w : NativeSize} {plat : Platform}
  {sk : LWEPrivateKey n} {draws : KeyGenDraws p n} {gBits : ℕ} {S E : ℝ} {E' : ℚ} {pt beta b : ℕ}

end Generated

/-! ### Messages modulo four -/

/-- The ring of dimension 64 with a modulus that can be doubled. -/
def tableRing : RingGSWCryptoParams := { smallRing with q := 64 }

instance : NeZero tableRing.N := ⟨by decide⟩
instance : NeZero tableRing.Q := ⟨by decide⟩
instance : NeZero tableRing.q := ⟨by decide⟩

def tableDraws : KeyGenDraws tableRing 1 where
  skN := smallDraws.skN
  masksKS := smallDraws.masksKS
  errorsKS := smallDraws.errorsKS
  dm := fun _ _ _ => ⟨fun _ _ => 1, fun l => xpow l⟩
  cggi := fun _ _ => ⟨fun _ _ => 1, fun l => xpow l⟩
  lmkcdey := fun _ => ⟨fun _ _ => 1, fun l => xpow l⟩
  auto := fun _ => ⟨fun _ => 1, fun l => xpow l⟩

theorem tableDraws_makesKeys : MakesKeys .w64 .threeDigits tableRing 32768 32 smallKey tableDraws 7 1 1 1 where
  admissible := ⟨⟨6, rfl⟩, by decide, by decide, by decide, by decide, by decide⟩
  covers := ⟨rfl, by decide, by decide, by decide, smallRing_covers.powers, by decide, by decide⟩
  digits := by decide
  switches := smallDraws_switches
  modulus := rfl
  reads := ⟨by decide, fun _ => .inr (.inl rfl)⟩
  secret_le := fun i => by rw [show tableDraws.skN.signed i = 1 from rfl]; simp
  dm_le := fun _ _ _ l => bounded_xpow l
  cggi_le := fun _ _ l => bounded_xpow l
  errors_le := smallDraws_makesKeys.errors_le

theorem tableDraws_lookUpBound {fmod : ℕ} (either : fmod = 64 ∨ fmod = 128) :
    lookUpBound .threeDigits tableRing 32768 32 smallKey tableDraws 7 1 1 1 fmod < 4 := by
  have Q : tableRing.Q = 134215681 := rfl
  have size : tableRing.N = 64 := rfl
  have rotation : rotationBound .threeDigits tableRing 1 7 1 1 = 4 * productBound smallRing 7 1 1 := by
    show ((1 : ℕ) : ℝ) * (4 * productBound smallRing 7 1 1) = _
    rw [Nat.cast_one, one_mul]
  have ring : (1 + ∑ i, |tableDraws.skN.signed i| : ℤ) = 65 := by simp [show ∀ i, tableDraws.skN.signed i = 1 from fun _ => rfl, size]
  have key : (1 + ∑ i, |smallKey.signed i| : ℤ) = 2 := rfl
  have digits : Platform.threeDigits.digitCount 32768 32 = 3 := rfl
  rw [lookUpBound, rotation, smallRing_productBound, switchBound, ring, key, digits, Q, size]
  rcases either with rfl | rfl <;> norm_num

/-- A function whose table changes its sign. -/
def bump (m _p : ℕ) : ℕ := [1, 2, 3, 2].getD m 0

end LWEGate
end MultiKeyFHE
