import MultiKeyFHE.Params.Scheme
import MultiKeyFHE.Scheme.LWE
import MultiKeyFHE.Library.InPlace

/-!
# Switching of large ciphertexts

`SwitchCTtoqn` of the context and of the LWE scheme, for a ciphertext of any length. `KeySwitch` counts with the
dimension of the parameters and reads the ciphertext and the tables of the key without checks; here every read is one
that can be out of range.
-/

namespace MultiKeyFHE
open NativeInteger InPlace

/-- The vectors of `LWESwitchingKeyImpl`: a mask and a value for each entry, digit and place. -/
structure LWESwitchingKey where
  keyA : List (List (List (List ℕ)))
  keyB : List (List (List ℕ))

/-- The tables that `KeySwitchGen` fills with the entries of a key. -/
def LWESwitchingKey.ofEntries {N n : ℕ} (K : LWE.SwitchingKey N n) (baseKS digitCount : ℕ) : LWESwitchingKey where
  keyA := List.ofFn fun i => (List.range baseKS).map fun digit => (List.range digitCount).map fun j =>
    List.ofFn (K.A i digit j)
  keyB := List.ofFn fun i => (List.range baseKS).map fun digit => (List.range digitCount).map fun j => K.B i digit j

namespace LWE
variable (w : NativeSize) (qKS n baseKS digitCount : ℕ)

/-- The loop over the digits of one entry, from what is left of the entry, `a` and `b`. -/
def readDigit (refA : List (List (List ℕ))) (refB : List (List ℕ)) (s : ℕ × List ℕ × ℕ) (j : ℕ) :
    Except Fault (ℕ × List ℕ × ℕ) := do
  if baseKS = 0 then throw .divisionByZero
  let a0 := s.1 % baseKS
  let b ← load .outOfRange (← load .outOfRange refB a0) j
  let refAj ← load .outOfRange (← load .outOfRange refA a0) j
  let a ← (List.range n).mapM fun k => do
    return modSubFast w (← load .outOfRange s.2.1 k) (← load .outOfRange refAj k) qKS
  return (s.1 / baseKS, a, modSubFast w s.2.2 b qKS)

def readEntry (K : LWESwitchingKey) (entries : List ℕ) (s : List ℕ × ℕ) (i : ℕ) : Except Fault (List ℕ × ℕ) := do
  let refA ← load .outOfRange K.keyA i
  let refB ← load .outOfRange K.keyB i
  let atmp ← load .outOfRange entries i
  return (← (List.range digitCount).foldlM (readDigit w qKS n baseKS refA refB) (atmp, s)).2

/-- `KeySwitch` for the dimension `N` of the parameters. -/
def keySwitchReading {len : ℕ} (N : ℕ) (K : LWESwitchingKey) (ctQN : LWECiphertext len) : Except Fault (LWECiphertext n) := do
  let s ← (List.range N).foldlM (readEntry w qKS n baseKS digitCount K (List.ofFn ctQN.a)) (List.replicate n 0, ctQN.b)
  return { a := fun k => s.1.getD k 0, b := s.2, modulus := qKS }

end LWE

namespace BinFHEContext
variable (w : NativeSize) (plat : Platform) (round : FloorRound) (P : LWECryptoParams) {len : ℕ}

/-- `SwitchCTtoqn` of the scheme. -/
def schemeSwitchCTtoqn (K : LWESwitchingKey) (ct : LWECiphertext len) : Except Fault (LWECiphertext P.n) := do
  let ctMS := LWE.modSwitch round P.qKS ct
  let ctKS ← LWE.keySwitchReading w P.qKS P.n P.baseKS (plat.digitCount P.qKS P.baseKS) P.N K ctMS
  return LWE.modSwitch round P.q ctKS

def notLarge : Fault := .configError "ERROR: Ciphertext dimension and modulus are not large N and Q"

def switchCTtoqn (K : LWESwitchingKey) (ct : LWECiphertext len) : Except Fault (LWECiphertext P.n) :=
  if len ≠ P.N ∧ ct.modulus ≠ P.Q then .error notLarge else schemeSwitchCTtoqn w plat round P K ct

end BinFHEContext

/-! ### Reads of a ciphertext with the right length -/

namespace LWE
variable {w : NativeSize} {qKS n N baseKS digitCount : ℕ} {K : SwitchingKey N n} {ctQN : LWECiphertext N}

theorem ofFn_eq_map_range {α : Type} (f : ℕ → α) : List.ofFn (fun k : Fin n => f k) = (List.range n).map f := by
  apply List.ext_getElem <;> simp

variable (w qKS) in
theorem subtract_mask (a mask : Fin n → ℕ) : ((List.range n).mapM fun k => do
      return modSubFast w (← load Fault.outOfRange (List.ofFn a) k) (← load Fault.outOfRange (List.ofFn mask) k) qKS) =
    .ok (List.ofFn fun k => modSubFast w (a k) (mask k) qKS) := by
  have each : ∀ k ∈ List.range n, (do
        return modSubFast w (← load Fault.outOfRange (List.ofFn a) k) (← load Fault.outOfRange (List.ofFn mask) k) qKS) =
      Except.ok (ε := Fault) (if h : k < n then modSubFast w (a ⟨k, h⟩) (mask ⟨k, h⟩) qKS else 0) := by
    intro k member
    have h := List.mem_range.mp member
    rw [load_ok _ (by simpa using h), load_ok _ (by simpa using h), dif_pos h]
    simp
    rfl
  rw [Run.mapM_eq_map each, ← ofFn_eq_map_range]
  simp

theorem load_range {α : Type} {f : ℕ → α} {m i : ℕ} (h : i < m) :
    load Fault.outOfRange ((List.range m).map f) i = .ok (f i) := by
  rw [load_ok _ (by simpa using h)]
  simp

theorem load_ofFn {α : Type} {m : ℕ} (f : Fin m → α) (i : Fin m) : load Fault.outOfRange (List.ofFn f) i = .ok (f i) := by
  rw [load_ok _ (by simp)]
  simp

theorem readDigit_ok (base : baseKS ≠ 0) (ct : LWECiphertext n) (i : Fin N) {j : ℕ} (hj : j < digitCount) :
    readDigit w qKS n baseKS
        ((List.range baseKS).map fun digit => (List.range digitCount).map fun j => List.ofFn (K.A i digit j))
        ((List.range baseKS).map fun digit => (List.range digitCount).map fun j => K.B i digit j)
        (ctQN.a i / baseKS ^ j, List.ofFn ct.a, ct.b) j =
      .ok (ctQN.a i / baseKS ^ (j + 1), List.ofFn (keySwitchStep w qKS K baseKS ctQN ct (i, j)).a,
        (keySwitchStep w qKS K baseKS ctQN ct (i, j)).b) := by
  have digit : ctQN.a i / baseKS ^ j % baseKS < baseKS := Nat.mod_lt _ (Nat.pos_of_ne_zero base)
  have mask := subtract_mask w qKS ct.a (K.A i (ctQN.a i / baseKS ^ j % baseKS) j)
  dsimp only [bind, Except.bind] at mask
  unfold readDigit
  simp only [if_neg base, load_range digit]
  dsimp only [bind, Except.bind]
  simp only [load_range hj]
  rw [mask]
  simp only [pow_succ, ← Nat.div_div_eq_div_mul]
  rfl

theorem readEntry_ok (base : baseKS ≠ 0) (ct : LWECiphertext n) (i : Fin N) :
    readEntry w qKS n baseKS digitCount (LWESwitchingKey.ofEntries K baseKS digitCount) (List.ofFn ctQN.a)
        (List.ofFn ct.a, ct.b) i =
      let ct' := (List.range digitCount).foldl (fun ct j => keySwitchStep w qKS K baseKS ctQN ct (i, j)) ct
      .ok (List.ofFn ct'.a, ct'.b) := by
  have digits : ∀ m ≤ digitCount, (List.range m).foldlM (readDigit w qKS n baseKS
        ((List.range baseKS).map fun digit => (List.range digitCount).map fun j => List.ofFn (K.A i digit j))
        ((List.range baseKS).map fun digit => (List.range digitCount).map fun j => K.B i digit j))
        (ctQN.a i, List.ofFn ct.a, ct.b) =
      let ct' := (List.range m).foldl (fun ct j => keySwitchStep w qKS K baseKS ctQN ct (i, j)) ct
      .ok (ctQN.a i / baseKS ^ m, List.ofFn ct'.a, ct'.b) := by
    intro m hm
    induction m with
    | zero =>
      rw [pow_zero, Nat.div_one]
      rfl
    | succ m ih =>
      rw [List.range_succ, List.foldl_append]
      apply Run.foldlM_append_ok (ih (by omega))
      exact Run.foldlM_cons_ok (readDigit_ok base _ i (by omega)) rfl
  unfold readEntry LWESwitchingKey.ofEntries
  simp only [load_ofFn]
  dsimp only [bind, Except.bind]
  rw [digits digitCount le_rfl]
  rfl

/-- On a ciphertext of the right length every read finds its cell, and `KeySwitch` is the function of the scheme. -/
theorem keySwitchReading_eq (base : baseKS ≠ 0) : keySwitchReading w qKS n baseKS digitCount N
      (LWESwitchingKey.ofEntries K baseKS digitCount) ctQN = .ok (keySwitch w qKS K baseKS digitCount ctQN) := by
  have loop := Run.foldlM_hom (l := List.finRange N) (fun ct : LWECiphertext n => (List.ofFn ct.a, ct.b))
    (f := fun s (i : Fin N) => readEntry w qKS n baseKS digitCount (LWESwitchingKey.ofEntries K baseKS digitCount)
      (List.ofFn ctQN.a) s i) (fun ct i _ => readEntry_ok base ct i)
    { a := fun _ => 0, b := ctQN.b, modulus := qKS }
  have zeros : List.replicate n 0 = List.ofFn fun _ : Fin n => 0 := by
    apply List.ext_getElem <;> simp
  obtain ⟨modulus, p⟩ := keySwitch_frame w qKS K baseKS digitCount ctQN
  unfold keySwitch at modulus p
  unfold keySwitchReading keySwitch
  rw [← List.map_coe_finRange_eq_range, List.foldlM_map, zeros, loop, ← Run.foldl_product]
  apply congrArg Except.ok
  apply LWECiphertext.ext
  · funext k
    simp
  · rfl
  · exact modulus.symm
  · exact p.symm

end LWE

/-! ### Reads that miss -/

/-- Whatever stops `x` is a fault of the machine, which no caller can catch. -/
def Silent {α : Type} (x : Except Fault α) : Prop := ∀ e, x = .error e → ¬ e.isException

namespace Silent
variable {α β : Type}

theorem pure (a : α) : Silent (Pure.pure a) := by
  intro e h
  cases h

theorem bind {x : Except Fault α} {f : α → Except Fault β} (first : Silent x) (rest : ∀ a, Silent (f a)) :
    Silent (x >>= f) := by
  intro e h
  rcases Run.bind_error h with h | ⟨a, -, h⟩
  · exact first e h
  · exact rest a e h

theorem foldlM {f : β → α → Except Fault β} (step : ∀ s x, Silent (f s x)) (l : List α) (s : β) : Silent (l.foldlM f s) :=
  fun _ h => Run.foldlM_error step h

theorem mapM {f : α → Except Fault β} (step : ∀ x, Silent (f x)) (l : List α) : Silent (l.mapM f) :=
  fun _ h => Run.mapM_error step h

theorem load (v : List α) (i : ℕ) : Silent (InPlace.load Fault.outOfRange v i) := by
  intro e h
  rw [load_error h]
  decide

end Silent

namespace LWE
variable (w : NativeSize) (qKS n baseKS digitCount : ℕ)

theorem readDigit_silent (refA : List (List (List ℕ))) (refB : List (List ℕ)) (s : ℕ × List ℕ × ℕ) (j : ℕ) :
    Silent (readDigit w qKS n baseKS refA refB s j) := by
  unfold readDigit
  split
  · intro e h
    cases h
    decide
  · apply (Silent.load _ _).bind
    intro rowB
    apply (Silent.load _ _).bind
    intro b
    apply (Silent.load _ _).bind
    intro rowA
    apply (Silent.load _ _).bind
    intro mask
    refine (Silent.mapM (fun k => ?_) _).bind fun a => .pure _
    exact (Silent.load _ _).bind fun x => (Silent.load _ _).bind fun y => .pure _

theorem readEntry_silent (K : LWESwitchingKey) (entries : List ℕ) (s : List ℕ × ℕ) (i : ℕ) :
    Silent (readEntry w qKS n baseKS digitCount K entries s i) := by
  unfold readEntry
  apply (Silent.load _ _).bind
  intro refA
  apply (Silent.load _ _).bind
  intro refB
  apply (Silent.load _ _).bind
  intro atmp
  exact (Silent.foldlM (readDigit_silent w qKS n baseKS refA refB) _ _).bind fun _ => .pure _

theorem keySwitchReading_silent {len : ℕ} (N : ℕ) (K : LWESwitchingKey) (ctQN : LWECiphertext len) :
    Silent (keySwitchReading w qKS n baseKS digitCount N K ctQN) :=
  (Silent.foldlM (readEntry_silent w qKS n baseKS digitCount K _) _ _).bind fun _ => .pure _

end LWE

namespace BinFHEContext
variable {w : NativeSize} {plat : Platform} {round : FloorRound} {P : LWECryptoParams} {len : ℕ}

theorem schemeSwitchCTtoqn_silent (K : LWESwitchingKey) (ct : LWECiphertext len) :
    Silent (schemeSwitchCTtoqn w plat round P K ct) := by
  apply Silent.bind
  · apply LWE.keySwitchReading_silent
  · exact fun _ => .pure _

theorem schemeSwitchCTtoqn_ok (base : P.baseKS ≠ 0) (K : LWE.SwitchingKey P.N P.n) (ct : LWECiphertext P.N) :
    schemeSwitchCTtoqn w plat round P (.ofEntries K P.baseKS (plat.digitCount P.qKS P.baseKS)) ct =
      .ok (LWE.modSwitch round P.q
        (LWE.keySwitch w P.qKS K P.baseKS (plat.digitCount P.qKS P.baseKS) (LWE.modSwitch round P.qKS ct))) := by
  have read : LWE.keySwitchReading w P.qKS P.n P.baseKS (plat.digitCount P.qKS P.baseKS) P.N
      (.ofEntries K P.baseKS (plat.digitCount P.qKS P.baseKS)) (LWE.modSwitch round P.qKS ct) =
        .ok (LWE.keySwitch w P.qKS K P.baseKS (plat.digitCount P.qKS P.baseKS) (LWE.modSwitch round P.qKS ct)) :=
    LWE.keySwitchReading_eq base
  dsimp only [schemeSwitchCTtoqn]
  rw [read]
  rfl

/-- Only a ciphertext of dimension `N` and modulus `Q` gets past the guard, and a run ends with a result or an exception. -/
structure Guarded (P : LWECryptoParams) (ct : LWECiphertext len) (run : Except Fault (LWECiphertext P.n)) : Prop where
  rejects : ¬ (len = P.N ∧ ct.modulus = P.Q) → ∃ e, run = .error e ∧ e.isException
  inside : ∀ e, run = .error e → e.isException

/-- The guard lets a ciphertext pass when one of the two is right, and nothing behind it throws. -/
theorem switchCTtoqn_guarded_iff {n N q Q qKS baseKS : ℕ} {std : ℚ} {keyDist : SecretKeyDist}
    (made : LWECryptoParams.construct w n N q Q qKS std baseKS keyDist = .ok P) (K : LWE.SwitchingKey P.N P.n)
    (ct : LWECiphertext len) :
    Guarded P ct (switchCTtoqn w plat round P (.ofEntries K P.baseKS (plat.digitCount P.qKS P.baseKS)) ct) ↔
      (len = P.N ↔ ct.modulus = P.Q) := by
  have base := (LWECryptoParams.constructFor_checked made).1.baseKS_ne
  unfold switchCTtoqn
  by_cases length : len = P.N
  · subst length
    simp only [ne_eq, not_true_eq_false, false_and, if_false, true_iff]
    rw [schemeSwitchCTtoqn_ok base]
    constructor
    · intro guarded
      by_contra wrong
      obtain ⟨e, h, -⟩ := guarded.rejects fun right => wrong right.2
      cases h
    · intro modulus
      exact ⟨fun wrong => absurd ⟨rfl, modulus⟩ wrong, fun e h => by cases h⟩
  · by_cases modulus : ct.modulus = P.Q
    · simp only [length, modulus, ne_eq, not_true_eq_false, and_false, if_false, iff_true, iff_false]
      intro guarded
      obtain ⟨e, h, thrown⟩ := guarded.rejects fun right => length right.1
      exact schemeSwitchCTtoqn_silent _ ct e h thrown
    · simp only [length, modulus, ne_eq, not_false_eq_true, and_self, if_true]
      refine ⟨fun _ => trivial, fun _ => ⟨fun _ => ⟨_, rfl, rfl⟩, fun e h => ?_⟩⟩
      cases h
      rfl

/-- Dimensions `1` and `2`, moduli `4` and `8`. -/
def twoEntries : LWECryptoParams := ⟨4, 8, 8, 1, 2, 2, .UNIFORM_TERNARY, 1, 1⟩

def zeroSwitchingKey : LWE.SwitchingKey twoEntries.N twoEntries.n := ⟨fun _ _ _ _ => 0, fun _ _ _ => 0⟩

def modulusEight (len : ℕ) : LWECiphertext len := { a := fun _ => 5, b := 3, modulus := 8 }

/-- A ciphertext that is too short gets past the guard when its modulus is `Q`. -/
theorem switchCTtoqn_short :
    ¬ Guarded twoEntries (modulusEight 1) (switchCTtoqn .w64 .threeDigits exactRound twoEntries
      (.ofEntries zeroSwitchingKey twoEntries.baseKS (Platform.threeDigits.digitCount twoEntries.qKS twoEntries.baseKS))
      (modulusEight 1)) := by
  intro guarded
  exact absurd (guarded.inside .outOfRange rfl) (by decide)

theorem switchCTtoqn_large :
    Guarded twoEntries (modulusEight 2) (switchCTtoqn .w64 .threeDigits exactRound twoEntries
      (.ofEntries zeroSwitchingKey twoEntries.baseKS (Platform.threeDigits.digitCount twoEntries.qKS twoEntries.baseKS))
      (modulusEight 2)) :=
  (switchCTtoqn_guarded_iff
    (rfl : LWECryptoParams.construct .w64 1 2 4 8 8 1 2 .UNIFORM_TERNARY = .ok twoEntries) zeroSwitchingKey _).mpr
    (by decide)

end BinFHEContext
end MultiKeyFHE
