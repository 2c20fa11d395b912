import MultiKeyFHE.Context.Generate
import MultiKeyFHE.Gate.Sign

/-!
# The gadget base after a sign evaluation

`EvalSign` and `EvalDecomp` put the gadget base back as their last step. `gadget_restored_iff` says for which key
maps, ciphertexts and tables the base, the digit count and the powers are the same after the call as before it.
-/

namespace MultiKeyFHE
open NativeInteger NativeVector

namespace LWEGate
variable {P : SingleKeyParams} {w : NativeSize} {plat : Platform} {round : FloorRound} {len : ℕ} {g g' : Gadget}

/-! ### When a round throws -/

/-- What a round needs of the key and the ciphertext. -/
structure Usable (P : SingleKeyParams) (w : NativeSize) (EK : EvalKeys P) (len : ℕ) : Prop where
  generated : EK.BSkey ≠ none
  modulus : ¬ modulusTooLarge w P.q
  length : len = P.n

theorem rotate_ok {EK : EvalKeys P} {m : Fin P.N → ℕ} {ct : LWECiphertext len} {acc : P.Acc}
    (h : rotate g EK m ct = .ok acc) : EK.BSkey ≠ none := by
  intro none
  rw [rotate, none] at h
  cases h

theorem rotate_exception {EK : EvalKeys P} {m : Fin P.N → ℕ} {ct : LWECiphertext len} {e : Fault}
    (h : rotate g EK m ct = .error e) (thrown : e.isException) : EK.BSkey = none := by
  unfold rotate at h
  split at h
  · assumption
  · split at h
    · cases h
      cases thrown
    · cases h

theorem switch_not_exception {EK : EvalKeys P} {fmod : ℕ} {ct : LWECiphertext P.N} {e : Fault}
    (h : switch w plat round EK fmod ct = .error e) : ¬ e.isException := by
  unfold switch at h
  split at h
  · cases h
    decide
  · cases h

theorem switch_modulus {EK : EvalKeys P} {fmod : ℕ} {ct : LWECiphertext P.N} {ct' : LWECiphertext P.n}
    (h : switch w plat round EK fmod ct = .ok ct') : ct'.modulus = fmod := by
  unfold switch at h
  split at h
  · cases h
  · cases h
    rfl

theorem bootstrapFunc_ok {EK : EvalKeys P} {ct : LWECiphertext len} {f : Func} {fmod : ℕ} {ct' : LWECiphertext P.n}
    (h : bootstrapFunc w plat round g EK ct f fmod = .ok ct') : EK.BSkey ≠ none ∧ ct'.modulus = fmod := by
  obtain ⟨acc, core, h⟩ := Run.bind_ok h
  exact ⟨rotate_ok core, switch_modulus h⟩

theorem bootstrapFunc_exception {EK : EvalKeys P} {ct : LWECiphertext len} {f : Func} {fmod : ℕ} {e : Fault}
    (h : bootstrapFunc w plat round g EK ct f fmod = .error e) (thrown : e.isException) : EK.BSkey = none := by
  obtain core | ⟨acc, -, h⟩ := Run.bind_error h
  · exact rotate_exception core thrown
  · exact absurd thrown (switch_not_exception h)

theorem floorPass_ok {EK : EvalKeys P} {mod : ℕ} {f : Func} {ct ct' : LWECiphertext len}
    (h : floorPass w plat round g EK P.q mod f ct = .ok ct') : Usable P w EK len ∧ ct'.modulus = ct.modulus := by
  obtain ⟨ctModq, changed, h⟩ := Run.bind_ok h
  obtain ⟨ct2, boot, h⟩ := Run.bind_ok h
  obtain ⟨ct3, same, h⟩ := Run.bind_ok h
  refine ⟨⟨(bootstrapFunc_ok boot).1, changeModulus_ok changed, ?_⟩, ?_⟩
  · by_contra other
    rw [sameLength, dif_neg (Ne.symm other)] at same
    cases same
  · unfold LWE.evalSubEq at h
    split at h
    · cases h
    · cases h
      rfl

theorem floorPass_exception {EK : EvalKeys P} {mod : ℕ} {f : Func} {ct : LWECiphertext len} {e : Fault}
    (modulus : ct.modulus = mod) (h : floorPass w plat round g EK P.q mod f ct = .error e) (thrown : e.isException) :
    ¬ Usable P w EK len := by
  rintro ⟨generated, small, rfl⟩
  obtain changed | ⟨ctModq, -, h⟩ := Run.bind_error h
  · exact small (changeModulus_error changed)
  obtain boot | ⟨ct2, boot, h⟩ := Run.bind_error h
  · exact generated (bootstrapFunc_exception boot thrown)
  obtain same | ⟨ct3, same, h⟩ := Run.bind_error h
  · rw [sameLength, dif_pos rfl] at same
    cases same
  rw [sameLength, dif_pos rfl] at same
  cases same
  rw [LWE.evalSubEq, if_neg (not_not.mpr (modulus.trans (bootstrapFunc_ok boot).2.symm))] at h
  cases h

theorem evalFloor_ok {EK : EvalKeys P} {beta : ℕ} {ct ct' : LWECiphertext len}
    (h : evalFloor w plat round g EK ct beta 0 = .ok ct') : Usable P w EK len := by
  rw [evalFloor_passes w plat round rfl] at h
  obtain ⟨ct1, pass, h⟩ := Run.bind_ok h
  exact (floorPass_ok pass).1

theorem evalFloor_exception {EK : EvalKeys P} {beta : ℕ} {ct : LWECiphertext len} {e : Fault}
    (h : evalFloor w plat round g EK ct beta 0 = .error e) (thrown : e.isException) : ¬ Usable P w EK len := by
  rw [evalFloor_passes w plat round rfl] at h
  obtain pass | ⟨ct1, pass, h⟩ := Run.bind_error h
  · exact floorPass_exception rfl pass thrown
  · exact floorPass_exception (floorPass_ok pass).2 h thrown

theorem floorRound_ok {r : Rounds} {beta mod : ℕ} {EK : EvalKeys P} {ct : LWECiphertext len}
    {ret : List (LWECiphertext len)} {s : LWECiphertext len × List (LWECiphertext len)}
    (h : floorRound w plat round r beta mod EK ct ret g = .ok s) : Usable P w EK len := by
  obtain ⟨digits, -, h⟩ := Run.bind_ok h
  obtain ⟨ct', floor, h⟩ := Run.bind_ok h
  exact evalFloor_ok floor

theorem floorRound_exception {r : Rounds} {beta mod : ℕ} {EK : EvalKeys P} {ct : LWECiphertext len}
    {ret : List (LWECiphertext len)} {e : Fault} (h : floorRound w plat round r beta mod EK ct ret g = .error e)
    (thrown : e.isException) : ¬ Usable P w EK len := by
  obtain stored | ⟨digits, -, h⟩ := Run.bind_error h
  · unfold lowDigit at stored
    split at stored
    · obtain changed | ⟨ct', -, stored⟩ := Run.bind_error stored
      · exact fun usable => usable.modulus (changeModulus_error changed)
      · cases stored
    · cases stored
  obtain floor | ⟨ct', -, h⟩ := Run.bind_error h
  · exact evalFloor_exception floor thrown
  split at h
  · cases h
    cases thrown
  · cases h

theorem lastSign_ok {schemeSwitch : Bool} {beta : ℕ} {EK : EvalKeys P} {ct : LWECiphertext len} {ct' : LWECiphertext P.n}
    (h : lastSign w plat round schemeSwitch beta EK ct g = .ok ct') : EK.BSkey ≠ none := by
  unfold lastSign at h
  split at h
  · exact (bootstrapFunc_ok h).1
  · obtain ⟨last, boot, h⟩ := Run.bind_ok h
    exact (bootstrapFunc_ok boot).1

theorem lastSign_exception {schemeSwitch : Bool} {beta : ℕ} {EK : EvalKeys P} {ct : LWECiphertext len} {e : Fault}
    (h : lastSign w plat round schemeSwitch beta EK ct g = .error e) (thrown : e.isException) : EK.BSkey = none := by
  unfold lastSign at h
  split at h
  · exact bootstrapFunc_exception h thrown
  · obtain boot | ⟨last, -, h⟩ := Run.bind_error h
    · exact bootstrapFunc_exception boot thrown
    · cases h

/-! ### Changes of the base -/

/-- `g'` comes from `g` by changes to other bases: its powers are those that the table of `g` lists. -/
structure Switched (plat : Platform) (g g' : Gadget) : Prop where
  Q : g'.Q = g.Q
  digits : g'.digitsG = plat.digitCount g.Q g'.baseG
  powers : g'.Gpower = (g.Gpower_map.get? g'.baseG).getD []
  table : ∀ base, (g'.Gpower_map.get? base).getD [] = (g.Gpower_map.get? base).getD []

theorem getD_touch {map : KeyMap (List ℕ)} (base key : ℕ) :
    ((map.touch [] base).get? key).getD [] = (map.get? key).getD [] := by
  unfold KeyMap.touch
  cases found : map.get? base with
  | some _ => rfl
  | none =>
    by_cases same : key = base
    · rw [same, KeyMap.get?_write_self, found]
      rfl
    · rw [KeyMap.get?_write_other same]

theorem changeBaseG_switched {base : ℕ} (other : base ≠ g.baseG) : Switched plat g (g.changeBaseG plat base) := by
  rw [Gadget.changeBaseG, if_pos (Ne.symm other)]
  exact ⟨rfl, rfl, rfl, getD_touch base⟩

theorem Switched.trans {g'' : Gadget} (first : Switched plat g g') (second : Switched plat g' g'') :
    Switched plat g g'' where
  Q := second.Q.trans first.Q
  digits := by rw [second.digits, first.Q]
  powers := by rw [second.powers, first.table]
  table := fun base => (second.table base).trans (first.table base)

/-- The table holds what the base in use has: going to another base and back changes nothing that is read. -/
def Restorable (plat : Platform) (g : Gadget) : Prop :=
  g.digitsG = plat.digitCount g.Q g.baseG ∧ g.Gpower = (g.Gpower_map.get? g.baseG).getD []

theorem Switched.read_changeBaseG (switched : Switched plat g g') :
    (g'.changeBaseG plat g.baseG).read = g.read ↔ Restorable plat g := by
  have value : (g'.changeBaseG plat g.baseG).read =
      ⟨g.Q, g.baseG, plat.digitCount g.Q g.baseG, (g.Gpower_map.get? g.baseG).getD [], []⟩ := by
    by_cases same : g'.baseG = g.baseG
    · rw [Gadget.changeBaseG, if_neg (not_not.mpr same), Gadget.read, switched.Q, switched.digits, switched.powers, same]
    · rw [Gadget.changeBaseG, if_pos same, Gadget.read]
      dsimp only
      rw [switched.Q, switched.table]
  rw [value, Gadget.read, Restorable, Gadget.mk.injEq]
  constructor
  · rintro ⟨-, -, digits, powers, -⟩
    exact ⟨digits.symm, powers.symm⟩
  · rintro ⟨digits, powers⟩
    exact ⟨rfl, rfl, digits.symm, powers.symm, rfl⟩

theorem changeBaseG_baseG (base : ℕ) : (g.changeBaseG plat base).baseG = base := by
  unfold Gadget.changeBaseG
  split
  · rfl
  · rename_i same
    exact not_not.mp same

/-! ### One round -/

theorem SignM.bind_some {α β : Type} {x : SignM α} {f : α → SignM β} {res : Except Fault β}
    (h : SignM.bind x f g = some (res, g')) :
    (∃ e, x g = some (.error e, g') ∧ res = .error e) ∨ ∃ a g₁, x g = some (.ok a, g₁) ∧ f a g₁ = some (res, g') := by
  unfold SignM.bind at h
  split at h
  · cases h
  · rename_i e g₁ run
    cases h
    exact .inl ⟨e, run, rfl⟩
  · rename_i a g₁ run
    exact .inr ⟨a, g₁, run, h⟩

theorem SignM.reading_some {α : Type} {call : Gadget → Except Fault α} {res : Except Fault α}
    (h : SignM.reading call g = some (res, g')) : call g = res ∧ g' = g := by
  have same := Option.some.inj h
  exact ⟨congrArg Prod.fst same, (congrArg Prod.snd same).symm⟩

variable {EKs : KeyMap (EvalKeys P)} {curBase : ℕ} {curEK : EvalKeys P}

/-- The gadget and the key with which the rounds go on. -/
def Follows (plat : Platform) (EKs : KeyMap (EvalKeys P)) (binLog : ℕ) (curEK : EvalKeys P) (g : Gadget)
    (EK : EvalKeys P) (g' : Gadget) : Prop :=
  ((EKs.length ≠ 3 ∨ baseFor binLog = none) ∧ EK = curEK ∧ g' = g) ∨
    ∃ base, EKs.length = 3 ∧ baseFor binLog = some base ∧ EKs.get? base = some EK ∧ g' = g.changeBaseG plat base

theorem followBase_cases {binLog : ℕ} {res : Except Fault (EvalKeys P)}
    (h : followBase plat EKs curBase binLog curEK g = some (res, g')) :
    (∃ EK, res = .ok EK ∧ Follows plat EKs binLog curEK g EK g') ∨
      ∃ base, EKs.length = 3 ∧ baseFor binLog = some base ∧ EKs.get? base = none ∧ g' = g.changeBaseG plat base ∧
        res = .error (keyMissing curBase) := by
  unfold followBase at h
  by_cases three : EKs.length = 3
  · rw [if_pos three] at h
    cases chosen : baseFor binLog with
    | none =>
      rw [chosen] at h
      cases h
      exact .inl ⟨_, rfl, .inl ⟨.inr chosen, rfl, rfl⟩⟩
    | some base =>
      rw [chosen] at h
      obtain ⟨e, changed, -⟩ | ⟨_, g₁, changed, h⟩ := SignM.bind_some h
      · cases changed
      cases changed
      cases found : EKs.get? base with
      | none =>
        rw [found] at h
        cases h
        exact .inr ⟨base, three, rfl, found, rfl, rfl⟩
      | some EK =>
        rw [found] at h
        cases h
        exact .inl ⟨EK, rfl, .inr ⟨base, three, chosen, found, rfl⟩⟩
  · rw [if_neg three] at h
    cases h
    exact .inl ⟨_, rfl, .inl ⟨.inl three, rfl, rfl⟩⟩

variable {r : Rounds} {beta fuel mod : ℕ} {ct : LWECiphertext len} {ret : List (LWECiphertext len)}
  {res : Except Fault (EvalKeys P × LWECiphertext len × List (LWECiphertext len))}

/-- What a call of the loop does: it ends, it throws in the floor or at the search for the key, or it goes on. -/
theorem floorLoop_cases (h : floorLoop w plat round r beta EKs curBase fuel mod curEK ct ret g = some (res, g')) :
    (mod ≤ P.q ∧ res = .ok (curEK, ct, ret) ∧ g' = g) ∨
    (P.q < mod ∧ ∃ e, floorRound w plat round r beta mod curEK ct ret g = .error e ∧ res = .error e ∧ g' = g) ∨
    (P.q < mod ∧ Usable P w curEK len ∧ ∃ base, EKs.length = 3 ∧ baseFor (r.binLog (r.next mod)) = some base ∧
      EKs.get? base = none ∧ g' = g.changeBaseG plat base ∧ res = .error (keyMissing curBase)) ∨
    (P.q < mod ∧ Usable P w curEK len ∧ ∃ fuel' EK g₁ ct' ret', fuel = fuel' + 1 ∧
      Follows plat EKs (r.binLog (r.next mod)) curEK g EK g₁ ∧
      floorLoop w plat round r beta EKs curBase fuel' (r.next mod) EK ct' ret' g₁ = some (res, g')) := by
  cases fuel with
  | zero => cases h
  | succ fuel =>
    rw [floorLoop] at h
    split at h
    · rename_i more
      obtain ⟨e, floor, thrown⟩ | ⟨s, g₁, floor, afterFloor⟩ := SignM.bind_some h
      · obtain ⟨error, rfl⟩ := SignM.reading_some floor
        exact .inr (.inl ⟨more, e, error, thrown, rfl⟩)
      obtain ⟨ok, rfl⟩ := SignM.reading_some floor
      have usable := floorRound_ok ok
      obtain ⟨e, follow, thrown⟩ | ⟨EK, g₂, follow, afterFollow⟩ := SignM.bind_some afterFloor
      · obtain ⟨_, found, -⟩ | ⟨base, three, chosen, missing, changed, error⟩ := followBase_cases follow
        · cases found
        · cases error
          exact .inr (.inr (.inl ⟨more, usable, base, three, chosen, missing, changed, thrown⟩))
      · obtain ⟨_, found, follows⟩ | ⟨_, _, _, _, _, error⟩ := followBase_cases follow
        · cases found
          exact .inr (.inr (.inr ⟨more, usable, fuel, EK, g₂, s.1, s.2, rfl, follows, afterFollow⟩))
        · cases error
    · rename_i done
      cases h
      exact .inl ⟨Nat.not_lt.mp done, rfl, rfl⟩

/-! ### All rounds -/

/-- The moduli that the rounds reach from `mod`, as long as they are above `q`. -/
inductive Reaches (r : Rounds) (q : ℕ) : ℕ → ℕ → Prop
  | first {mod : ℕ} (more : q < mod) : Reaches r q mod (r.next mod)
  | later {mod m : ℕ} (more : q < mod) (rest : Reaches r q (r.next mod) m) : Reaches r q mod m

def Selects (r : Rounds) (m base : ℕ) : Prop := baseFor (r.binLog m) = some base

/-- The map has a key for the base, with a bootstrapping key in it if it is to be used. -/
def Ready (EKs : KeyMap (EvalKeys P)) (used : Prop) (base : ℕ) : Prop :=
  ∃ EK, EKs.get? base = some EK ∧ (used → EK.BSkey ≠ none)

/-- How the rounds from `mod` have left the gadget. -/
structure Completed (plat : Platform) (EKs : KeyMap (EvalKeys P)) (r : Rounds) (mod : ℕ) (g : Gadget) (EK : EvalKeys P)
    (g' : Gadget) : Prop where
  key : EKs.get? g'.baseG = some EK
  stays : (∀ m base, Reaches r P.q mod m → Selects r m base → base = g.baseG) → g' = g
  moves : ∀ m base, Reaches r P.q mod m → Selects r m base → base ≠ g.baseG → Switched plat g g'
  ready : ∀ m base, Reaches r P.q mod m → Selects r m base → Ready EKs (P.q < m) base
  last : ∀ m base, Reaches r P.q mod m → m ≤ P.q → Selects r m base → base = g'.baseG
  origin : g'.baseG = g.baseG ∨ ∃ m, Reaches r P.q mod m ∧ Selects r m g'.baseG

theorem not_reaches_of_le {q m : ℕ} (done : mod ≤ q) : ¬ Reaches r q mod m := by
  intro reaches
  cases reaches with
  | first more => omega
  | later more _ => omega

theorem reaches_cases {q m : ℕ} (reaches : Reaches r q mod m) : m = r.next mod ∨ Reaches r q (r.next mod) m := by
  cases reaches with
  | first _ => exact .inl rfl
  | later _ rest => exact .inr rest

theorem completed_of_le (done : mod ≤ P.q) (key : EKs.get? g.baseG = some curEK) :
    Completed plat EKs r mod g curEK g where
  key := key
  stays := fun _ => rfl
  moves := fun _ _ reaches => absurd reaches (not_reaches_of_le done)
  ready := fun _ _ reaches => absurd reaches (not_reaches_of_le done)
  last := fun _ _ reaches => absurd reaches (not_reaches_of_le done)
  origin := .inl rfl

section Round
variable {EK : EvalKeys P} {g₁ : Gadget}

theorem Follows.key (follows : Follows plat EKs (r.binLog (r.next mod)) curEK g EK g₁)
    (key : EKs.get? g.baseG = some curEK) : EKs.get? g₁.baseG = some EK := by
  obtain ⟨-, rfl, rfl⟩ | ⟨base, -, -, found, rfl⟩ := follows
  · exact key
  · rw [changeBaseG_baseG]
    exact found

/-- With three keys a selected base is the base in use afterwards, and its key is the key in use. -/
theorem Follows.selected (follows : Follows plat EKs (r.binLog (r.next mod)) curEK g EK g₁) (three : EKs.length = 3)
    {base : ℕ} (selects : Selects r (r.next mod) base) :
    g₁ = g.changeBaseG plat base ∧ g₁.baseG = base ∧ EKs.get? base = some EK := by
  obtain ⟨none | none, -, -⟩ | ⟨chosen, -, chose, found, rfl⟩ := follows
  · exact absurd three none
  · rw [Selects, none] at selects
    cases selects
  · obtain rfl : chosen = base := Option.some.inj (chose.symm.trans selects)
    exact ⟨rfl, changeBaseG_baseG chosen, found⟩

theorem Follows.same_or_switched (follows : Follows plat EKs (r.binLog (r.next mod)) curEK g EK g₁) :
    g₁ = g ∨ (Switched plat g g₁ ∧ Selects r (r.next mod) g₁.baseG ∧ g₁.baseG ≠ g.baseG) := by
  obtain ⟨-, -, rfl⟩ | ⟨base, -, chosen, -, rfl⟩ := follows
  · exact .inl rfl
  · by_cases same : base = g.baseG
    · rw [same, Gadget.changeBaseG_self]
      exact .inl rfl
    · rw [changeBaseG_baseG]
      exact .inr ⟨changeBaseG_switched same, chosen, same⟩

/-- The step of the loop: the rounds after this one, and what it did itself. -/
theorem Completed.before {EK' : EvalKeys P} (three : EKs.length = 3) (more : P.q < mod)
    (follows : Follows plat EKs (r.binLog (r.next mod)) curEK g EK g₁) (usable : P.q < r.next mod → EK.BSkey ≠ none)
    (later : Completed plat EKs r (r.next mod) g₁ EK' g') : Completed plat EKs r mod g EK' g' where
  key := later.key
  stays := by
    intro every
    have same : g₁ = g := by
      obtain same | ⟨-, selects, other⟩ := follows.same_or_switched
      · exact same
      · exact absurd (every _ _ (.first more) selects) other
    rw [later.stays fun m base reaches selects => same ▸ every m base (.later more reaches) selects]
    exact same
  moves := by
    intro m base reaches selects other
    obtain rfl | ⟨switched, -, -⟩ := follows.same_or_switched
    · obtain rfl | rest := reaches_cases reaches
      · exact absurd (follows.selected three selects).2.1.symm other
      · exact later.moves m base rest selects other
    · by_cases every : ∀ m base, Reaches r P.q (r.next mod) m → Selects r m base → base = g₁.baseG
      · rw [later.stays every]
        exact switched
      · push Not at every
        obtain ⟨m', base', rest, selects', other'⟩ := every
        exact switched.trans (later.moves m' base' rest selects' other')
  ready := by
    intro m base reaches selects
    obtain rfl | rest := reaches_cases reaches
    · exact ⟨EK, (follows.selected three selects).2.2, usable⟩
    · exact later.ready m base rest selects
  last := by
    intro m base reaches small selects
    obtain rfl | rest := reaches_cases reaches
    · rw [later.stays fun _ _ rest => absurd rest (not_reaches_of_le small)]
      exact (follows.selected three selects).2.1.symm
    · exact later.last m base rest small selects
  origin := by
    obtain same | ⟨m, rest, selects⟩ := later.origin
    · obtain rfl | ⟨-, selects, -⟩ := follows.same_or_switched
      · exact .inl same
      · exact .inr ⟨_, .first more, same ▸ selects⟩
    · exact .inr ⟨m, .later more rest, selects⟩

end Round

theorem floorLoop_completed (three : EKs.length = 3) {EK' : EvalKeys P} {ct' : LWECiphertext len}
    {ret' : List (LWECiphertext len)} (key : EKs.get? g.baseG = some curEK)
    (h : floorLoop w plat round r beta EKs curBase fuel mod curEK ct ret g = some (.ok (EK', ct', ret'), g')) :
    (P.q < mod → Usable P w curEK len) ∧ Completed plat EKs r mod g EK' g' := by
  induction fuel generalizing mod curEK ct ret g with
  | zero => cases h
  | succ fuel ih =>
    obtain ⟨done, ok, rfl⟩ | ⟨-, _, -, error, -⟩ | ⟨-, -, _, -, -, -, -, error⟩ |
      ⟨more, usable, fuel', EK, g₁, ct₁, ret₁, same, follows, rest⟩ := floorLoop_cases h
    · cases ok
      exact ⟨fun more => absurd more (by omega), completed_of_le done key⟩
    · cases error
    · cases error
    · cases same
      obtain ⟨next, later⟩ := ih (follows.key key) rest
      exact ⟨fun _ => usable, later.before three more follows fun above => (next above).generated⟩

/-- Thrown by the rounds from `mod`: the base in use was selected, and its key is not ready. -/
def Thrown (EKs : KeyMap (EvalKeys P)) (r : Rounds) (mod : ℕ) (g' : Gadget) : Prop :=
  ∃ m, Reaches r P.q mod m ∧ Selects r m g'.baseG ∧ ¬ Ready EKs (P.q < m) g'.baseG

theorem floorLoop_thrown {e : Fault} (small : ¬ modulusTooLarge w P.q) (length : len = P.n)
    (key : EKs.get? g.baseG = some curEK) (generated : P.q < mod → curEK.BSkey ≠ none)
    (h : floorLoop w plat round r beta EKs curBase fuel mod curEK ct ret g = some (.error e, g'))
    (thrown : e.isException) : Thrown EKs r mod g' := by
  induction fuel generalizing mod curEK ct ret g with
  | zero => cases h
  | succ fuel ih =>
    obtain ⟨-, ok, -⟩ | ⟨more, _, floor, error, rfl⟩ | ⟨more, -, base, -, chosen, missing, rfl, -⟩ |
      ⟨more, -, fuel', EK, g₁, ct₁, ret₁, same, follows, rest⟩ := floorLoop_cases h
    · cases ok
    · cases error
      exact absurd ⟨generated more, small, length⟩ (floorRound_exception floor thrown)
    · refine ⟨_, .first more, ?_, ?_⟩ <;> rw [changeBaseG_baseG]
      · exact chosen
      · rintro ⟨EK, found, -⟩
        rw [missing] at found
        cases found
    · cases same
      by_cases next : P.q < r.next mod → EK.BSkey ≠ none
      · obtain ⟨m, reaches, selects, unready⟩ := ih (follows.key key) next rest
        exact ⟨m, .later more reaches, selects, unready⟩
      · -- The key that was found has no bootstrapping key in it, so the next round throws at once.
        push Not at next
        obtain ⟨above, empty⟩ := next
        have unusable : ¬ Usable P w EK len := fun usable => usable.generated empty
        obtain ⟨done, -, -⟩ | ⟨-, _, -, -, rfl⟩ | ⟨-, usable, -⟩ | ⟨-, usable, -⟩ := floorLoop_cases rest
        · omega
        · obtain ⟨-, rfl, -⟩ | ⟨base, -, chosen, found, rfl⟩ := follows
          · exact absurd empty (generated more)
          · refine ⟨_, .first more, ?_, ?_⟩ <;> rw [changeBaseG_baseG]
            · exact chosen
            · rintro ⟨EK', found', ready⟩
              obtain rfl : EK = EK' := Option.some.inj (found.symm.trans found')
              exact ready above empty
        · exact absurd usable unusable
        · exact absurd usable unusable

/-- Without three keys nothing changes. -/
theorem floorLoop_unchanged (other : EKs.length ≠ 3)
    (h : floorLoop w plat round r beta EKs curBase fuel mod curEK ct ret g = some (res, g')) : g' = g := by
  induction fuel generalizing mod curEK ct ret g with
  | zero => cases h
  | succ fuel ih =>
    obtain ⟨-, -, same⟩ | ⟨-, _, -, -, same⟩ | ⟨-, -, _, three, -⟩ |
      ⟨-, -, fuel', EK, g₁, ct₁, ret₁, same, follows, rest⟩ := floorLoop_cases h
    · exact same
    · exact same
    · exact absurd three other
    · cases same
      obtain ⟨-, -, rfl⟩ | ⟨_, three, -⟩ := follows
      · exact ih rest
      · exact absurd three other

/-! ### The two calls -/

/-- A call has come to an end that its caller sees: it returned, or it threw. -/
def Ended {α : Type} (res : Except Fault α) : Prop := ∀ e, res = .error e → e.isException

/-- When a call of `EvalSign` (`final`, as it bootstraps once more after the rounds) or of `EvalDecomp` leaves the
gadget as it was. -/
def LeavesGadget (plat : Platform) (w : NativeSize) (r : Rounds) (final : Prop) (EKs : KeyMap (EvalKeys P)) (mod len : ℕ)
    (g : Gadget) : Prop :=
  EKs.length ≠ 3 ∨ mod ≤ P.q ∨ (∀ EK, EKs.get? g.baseG = some EK → ¬ Usable P w EK len) ∨
    (∀ m base, Reaches r P.q mod m → Selects r m base → base = g.baseG) ∨
    (Restorable plat g ∧
      ∀ m base, Reaches r P.q mod m → Selects r m base → base ≠ g.baseG → Ready EKs (final ∨ P.q < m) base)

section Calls
variable {final : Prop} {g₁ : Gadget} {EK' : EvalKeys P}

theorem Ready.mono {used used' : Prop} {base : ℕ} (ready : Ready EKs used base) (weaker : used' → used) :
    Ready EKs used' base := by
  obtain ⟨EK, found, generated⟩ := ready
  exact ⟨EK, found, fun h => generated (weaker h)⟩

theorem baseG_eq_of_read (same : g'.read = g.read) : g'.baseG = g.baseG := by
  have := congrArg Gadget.baseG same
  exact this

/-- The condition, once the first round has passed and a base other than the one in use is selected. -/
theorem leavesGadget_iff {m₀ base₀ : ℕ} (three : EKs.length = 3) (large : P.q < mod)
    (key : EKs.get? g.baseG = some curEK) (usable : Usable P w curEK len) (reaches : Reaches r P.q mod m₀)
    (selects : Selects r m₀ base₀) (other : base₀ ≠ g.baseG) :
    LeavesGadget plat w r final EKs mod len g ↔ Restorable plat g ∧
      ∀ m base, Reaches r P.q mod m → Selects r m base → base ≠ g.baseG → Ready EKs (final ∨ P.q < m) base := by
  constructor
  · rintro (no | no | no | no | yes)
    · exact absurd three no
    · omega
    · exact absurd usable (no curEK key)
    · exact absurd (no m₀ base₀ reaches selects) other
    · exact yes
  · exact fun yes => .inr (.inr (.inr (.inr yes)))

/-- The rounds threw: they had gone to another base by then. -/
theorem thrown_not_left (plat : Platform) (final : Prop) (three : EKs.length = 3) (large : P.q < mod) (key : EKs.get? g.baseG = some curEK)
    (usable : Usable P w curEK len) (thrown : Thrown EKs r mod g') :
    g'.read ≠ g.read ∧ ¬ LeavesGadget plat w r final EKs mod len g := by
  obtain ⟨m, reaches, selects, unready⟩ := thrown
  have other : g'.baseG ≠ g.baseG := by
    intro same
    rw [same] at unready
    exact unready ⟨curEK, key, fun _ => usable.generated⟩
  refine ⟨fun same => other (baseG_eq_of_read same), ?_⟩
  rw [leavesGadget_iff three large key usable reaches selects other]
  rintro ⟨-, ready⟩
  exact unready ((ready m _ reaches selects other).mono .inr)

theorem completed_left_iff (three : EKs.length = 3) (large : P.q < mod) (key : EKs.get? g.baseG = some curEK)
    (usable : Usable P w curEK len) (completed : Completed plat EKs r mod g EK' g₁)
    (ends : (final ∧ EK'.BSkey = none ∧ g' = g₁) ∨ ((final → EK'.BSkey ≠ none) ∧ g' = g₁.changeBaseG plat g.baseG)) :
    g'.read = g.read ↔ LeavesGadget plat w r final EKs mod len g := by
  by_cases every : ∀ m base, Reaches r P.q mod m → Selects r m base → base = g.baseG
  · obtain rfl := completed.stays every
    refine iff_of_true ?_ (.inr (.inr (.inr (.inl every))))
    obtain ⟨-, -, rfl⟩ | ⟨-, rfl⟩ := ends
    · rfl
    · rw [Gadget.changeBaseG_self]
  push Not at every
  obtain ⟨m₀, base₀, reaches₀, selects₀, other₀⟩ := every
  have switched := completed.moves m₀ base₀ reaches₀ selects₀ other₀
  rw [leavesGadget_iff three large key usable reaches₀ selects₀ other₀]
  obtain ⟨isFinal, empty, rfl⟩ | ⟨generated, rfl⟩ := ends
  · have other : g'.baseG ≠ g.baseG := by
      intro same
      have found := completed.key
      rw [same, key] at found
      cases found
      exact usable.generated empty
    refine iff_of_false (fun same => other (baseG_eq_of_read same)) ?_
    rintro ⟨-, ready⟩
    obtain ⟨m, reaches, selects⟩ := completed.origin.resolve_left other
    obtain ⟨EK, found, generated⟩ := ready m _ reaches selects other
    cases found.symm.trans completed.key
    exact generated (.inl isFinal) empty
  · rw [switched.read_changeBaseG]
    refine ⟨fun restorable => ⟨restorable, ?_⟩, And.left⟩
    intro m base reaches selects _
    by_cases above : P.q < m
    · exact (completed.ready m base reaches selects).mono fun _ => above
    · rw [completed.last m base reaches (by omega) selects]
      refine ⟨EK', completed.key, ?_⟩
      rintro (isFinal | above')
      · exact generated isFinal
      · exact absurd above' above

theorem floorAll_left_iff {name : String} (h : floorAll w plat round r name fuel EKs ct beta g.baseG g = some (res, g₁))
    (ends : match res with
      | .error e => e.isException ∧ g' = g₁
      | .ok s => (final ∧ s.1.BSkey = none ∧ g' = g₁) ∨
        ((final → s.1.BSkey ≠ none) ∧ g' = g₁.changeBaseG plat g.baseG)) :
    g'.read = g.read ↔ LeavesGadget plat w r final EKs ct.modulus len g := by
  unfold floorAll at h
  by_cases large : P.q < ct.modulus
  · rw [if_neg (by omega)] at h
    cases key : EKs.get? g.baseG with
    | none =>
      rw [key] at h
      cases h
      refine iff_of_true (by rw [ends.2]) (.inr (.inr (.inl fun EK found => ?_)))
      rw [key] at found
      cases found
    | some curEK =>
      rw [key] at h
      by_cases three : EKs.length = 3
      · by_cases usable : Usable P w curEK len
        · cases res with
          | error e =>
            have thrown := floorLoop_thrown usable.modulus usable.length key (fun _ => usable.generated) h ends.1
            rw [ends.2]
            obtain ⟨changed, unmet⟩ := thrown_not_left plat final three large key usable thrown
            exact iff_of_false changed unmet
          | ok s => exact completed_left_iff three large key usable (floorLoop_completed three key h).2 ends
        · -- The first round throws before the base can change.
          obtain ⟨small, -⟩ | ⟨-, e, -, rfl, rfl⟩ | ⟨-, yes, -⟩ | ⟨-, yes, -⟩ := floorLoop_cases h
          · omega
          · refine iff_of_true (by rw [ends.2]) (.inr (.inr (.inl fun EK found => ?_)))
            cases key.symm.trans found
            exact usable
          · exact absurd yes usable
          · exact absurd yes usable
      · obtain rfl := floorLoop_unchanged three h
        refine iff_of_true ?_ (.inl three)
        cases res with
        | error e => rw [ends.2]
        | ok s =>
          obtain ⟨-, -, rfl⟩ | ⟨-, rfl⟩ := ends
          · rfl
          · rw [Gadget.changeBaseG_self]
  · rw [if_pos (by omega)] at h
    cases h
    exact iff_of_true (by rw [ends.2]) (.inr (.inl (Nat.not_lt.mp large)))

theorem evalSign_left_iff {schemeSwitch : Bool} {out : Except Fault (LWECiphertext P.n)} (ended : Ended out)
    (h : evalSign w plat round fuel EKs ct beta schemeSwitch g = some (out, g')) :
    g'.read = g.read ↔ LeavesGadget plat w (signRounds w P.q beta) True EKs ct.modulus len g := by
  obtain ⟨e, rounds, rfl⟩ | ⟨s, g₁, rounds, rest⟩ := SignM.bind_some h
  · exact floorAll_left_iff rounds ⟨ended e rfl, rfl⟩
  obtain ⟨e, last, rfl⟩ | ⟨out', g₂, last, rest⟩ := SignM.bind_some rest
  · obtain ⟨boot, same⟩ := SignM.reading_some last
    exact floorAll_left_iff rounds (.inl ⟨trivial, lastSign_exception boot (ended e rfl), same⟩)
  · obtain ⟨boot, same⟩ := SignM.reading_some last
    obtain ⟨e, changed, -⟩ | ⟨_, g₃, changed, rest⟩ := SignM.bind_some rest
    · cases changed
    cases changed
    cases rest
    exact floorAll_left_iff rounds (.inr ⟨fun _ => lastSign_ok boot, by rw [same]⟩)

theorem evalDecomp_left_iff {out : Except Fault (List (LWECiphertext len))} (ended : Ended out)
    (h : evalDecomp w plat round fuel EKs ct beta g = some (out, g')) :
    g'.read = g.read ↔ LeavesGadget plat w (decompRounds w P.q beta) False EKs ct.modulus len g := by
  obtain ⟨e, rounds, rfl⟩ | ⟨s, g₁, rounds, rest⟩ := SignM.bind_some h
  · exact floorAll_left_iff rounds ⟨ended e rfl, rfl⟩
  obtain ⟨e, changed, -⟩ | ⟨_, g₂, changed, rest⟩ := SignM.bind_some rest
  · cases changed
  cases changed
  cases rest
  exact floorAll_left_iff rounds (.inr ⟨False.elim, rfl⟩)

/-- `EvalSign` and `EvalDecomp` leave `GetBaseG()`, `GetDigitsG()` and `GetGPower()` exactly under `LeavesGadget`. -/
theorem gadget_restored_iff (P : SingleKeyParams) (w : NativeSize) (plat : Platform) (round : FloorRound) (fuel : ℕ)
    (EKs : KeyMap (EvalKeys P)) {len : ℕ} (ct : LWECiphertext len) (beta : ℕ) (g : Gadget) :
    (∀ schemeSwitch out g', evalSign w plat round fuel EKs ct beta schemeSwitch g = some (out, g') → Ended out →
      (g'.read = g.read ↔ LeavesGadget plat w (signRounds w P.q beta) True EKs ct.modulus len g)) ∧
    ∀ out g', evalDecomp w plat round fuel EKs ct beta g = some (out, g') → Ended out →
      (g'.read = g.read ↔ LeavesGadget plat w (decompRounds w P.q beta) False EKs ct.modulus len g) :=
  ⟨fun _ _ _ run ended => evalSign_left_iff ended run, fun _ _ run ended => evalDecomp_left_iff ended run⟩

end Calls

/-! ### Three keys -/

/-- `q = 512`, and a gadget prepared for sign evaluation. -/
def smallParams : SingleKeyParams where
  lwe := ⟨512, 12289, 12289, 1, 2, 25, .UNIFORM_TERNARY, 1, 1⟩
  rgsw := { Gadget.preCompute .threeDigits true ⟨12289, 2 ^ 14, 3, [], []⟩ with
    q := 512, N := 2, baseR := 23, dggStd := 1, polyParams := none, method := .GINX, keyDist := .UNIFORM_TERNARY
    numAutoKeys := 10 }
  same_N := rfl
  same_Q := rfl
  same_q := rfl
  N_pos := by decide
  q_pos := by decide

/-- A key under which nothing rotates. -/
def idleKey : EvalKeys smallParams := ⟨some fun _ acc _ _ _ => some acc, some ⟨fun _ _ _ _ => 0, fun _ _ _ => 0⟩⟩

/-- Keys for the base in use, for `2 ^ 18`, and for one more base. -/
def threeKeys (third : ℕ) : KeyMap (EvalKeys smallParams) := [(2 ^ 14, idleKey), (2 ^ 18, idleKey), (third, idleKey)]

def largeCiphertext : LWECiphertext 1 := { a := fun _ => 0, b := 0, modulus := 1024 }

/-- The third key has been loaded for `2 ^ 20`: after one round the search for `2 ^ 27` throws. -/
theorem threeKeys_not_restored :
    ∃ out g', evalSign .w64 .threeDigits exactRound 2 (threeKeys (2 ^ 20)) largeCiphertext 128 false
        smallParams.rgsw.toGadget = some (out, g') ∧ Ended out ∧ g'.read ≠ smallParams.rgsw.toGadget.read := by
  refine ⟨.error (keyMissing (2 ^ 14)), smallParams.rgsw.toGadget.changeBaseG .threeDigits (2 ^ 27), rfl, ?_, ?_⟩
  · rintro e h
    cases h
    rfl
  · intro same
    have := baseG_eq_of_read same
    rw [changeBaseG_baseG] at this
    exact absurd this (by decide)

theorem small_reaches {m : ℕ} (reaches : Reaches (signRounds .w64 smallParams.q 128) smallParams.q 1024 m) : m = 512 := by
  obtain first | rest := reaches_cases reaches
  · exact first
  · exact absurd rest (not_reaches_of_le (by decide))

theorem small_selects {base : ℕ} (selects : Selects (signRounds .w64 smallParams.q 128) 512 base) : base = 2 ^ 27 :=
  (Option.some.inj selects).symm

theorem threeKeys_restored :
    ∃ out g', evalSign .w64 .threeDigits exactRound 2 (threeKeys (2 ^ 27)) largeCiphertext 128 false
        smallParams.rgsw.toGadget = some (out, g') ∧ Ended out ∧ g'.read = smallParams.rgsw.toGadget.read := by
  have ended : ∃ ct g', evalSign .w64 .threeDigits exactRound 2 (threeKeys (2 ^ 27)) largeCiphertext 128 false
      smallParams.rgsw.toGadget = some (.ok ct, g') := ⟨_, _, rfl⟩
  obtain ⟨ct, g', run⟩ := ended
  have returned : Ended (.ok ct : Except Fault _) := fun e h => nomatch h
  refine ⟨_, g', run, returned, ((gadget_restored_iff _ _ _ _ _ _ _ _ _).1 _ _ _ run returned).mpr ?_⟩
  refine .inr (.inr (.inr (.inr ⟨⟨rfl, rfl⟩, ?_⟩)))
  intro m base reaches selects _
  obtain rfl := small_reaches reaches
  obtain rfl := small_selects selects
  exact ⟨idleKey, rfl, fun _ none => nomatch none⟩

end LWEGate

/-! ### The parameters of a context -/

namespace SingleKeyParams
open BinFHECryptoParams
variable {w : NativeSize} {plat : Platform} {l : LWECryptoParams} {r : RingGSWCryptoParams}

theorem lwe_construct {n N q Q q_KS : ℕ} {std : ℚ} {baseKS : ℕ} {keyDist : SecretKeyDist}
    (h : LWECryptoParams.construct w n N q Q q_KS std baseKS keyDist = .ok l) :
    l.N = N ∧ l.Q = Q ∧ l.q = q ∧ 0 < N ∧ 0 < q := by
  obtain ⟨checked, hN, hQ, hq⟩ := LWECryptoParams.constructFor_checked h
  exact ⟨hN, hQ, hq, hN ▸ Nat.pos_of_ne_zero checked.N_ne, hq ▸ Nat.pos_of_ne_zero checked.q_ne⟩

theorem rgsw_construct {N Q q baseG baseR : ℕ} {method : Method} {std : ℚ} {keyDist : SecretKeyDist} {signEval : Bool}
    {numAutoKeys : ℕ}
    (h : RingGSWCryptoParams.construct plat N Q q baseG baseR method std keyDist signEval numAutoKeys = .ok r) :
    r.N = N ∧ r.Q = Q ∧ r.q = q := by
  obtain ⟨polyParams, -, h⟩ := Run.bind_ok h
  obtain ⟨-, h⟩ := Run.ite_ok h nofun
  obtain ⟨-, h⟩ := Run.ite_ok h nofun
  cases h
  cases signEval <;> exact ⟨rfl, rfl, rfl⟩

theorem exists_of_construct {n N q Q q_KS baseKS baseG baseR numAutoKeys : ℕ} {std std' : ℚ}
    {keyDist keyDist' : SecretKeyDist} {method : Method} {signEval : Bool}
    (lwe : LWECryptoParams.construct w n N q Q q_KS std baseKS keyDist = .ok l)
    (rgsw : RingGSWCryptoParams.construct plat N Q q baseG baseR method std' keyDist' signEval numAutoKeys = .ok r) :
    ∃ P : SingleKeyParams, P.lwe = l ∧ P.rgsw = r := by
  obtain ⟨hN, hQ, hq, posN, posq⟩ := lwe_construct lwe
  obtain ⟨hN', hQ', hq'⟩ := rgsw_construct rgsw
  exact ⟨⟨l, r, by omega, by omega, by omega, by omega, by omega⟩, rfl, rfl⟩

/-- What the overloads create for the single-key methods are such parameters. -/
theorem exists_of_creation {creation : Creation} {P : BinFHECryptoParams} (h : creation.run w plat = .ok P)
    (has : P.RGSWParams = some r) : ∃ S : SingleKeyParams, P.LWEParams = some S.lwe ∧ S.rgsw = r := by
  have assemble {l : LWECryptoParams} (made : ∃ S : SingleKeyParams, S.lwe = l ∧ S.rgsw = r) :
      ∃ S : SingleKeyParams, some l = some S.lwe ∧ S.rgsw = r := by
    obtain ⟨S, rfl, same⟩ := made
    exact ⟨S, rfl, same⟩
  cases creation with
  | numbers n N q Q std baseKS baseG baseR keyDist method numAutoKeys =>
    obtain ⟨l, lwe, h⟩ := Run.bind_ok h
    obtain ⟨r', rgsw, h⟩ := Run.bind_ok h
    cases h
    cases has
    exact assemble (exists_of_construct lwe rgsw)
  | precision set arbFunc logQ N method timeOptimization =>
    obtain ⟨_, -, h⟩ := Run.bind_ok h
    obtain ⟨secure, -, h⟩ := Run.bind_ok h
    obtain ⟨Q, -, h⟩ := Run.bind_ok h
    obtain ⟨l, lwe, h⟩ := Run.bind_ok h
    obtain ⟨r', rgsw, h⟩ := Run.bind_ok h
    cases h
    cases has
    exact assemble (exists_of_construct lwe rgsw)
  | paramSet draw set method =>
    change ofParamSet w plat draw set method = .ok P at h
    unfold ofParamSet at h
    split at h
    · cases h
    · obtain ⟨Q, -, h⟩ := Run.bind_ok h
      obtain ⟨l, lwe, h⟩ := Run.bind_ok h
      obtain ⟨mn, -, h⟩ := Run.bind_ok h
      obtain ⟨mk, -, h⟩ := Run.bind_ok h
      split at h
      · obtain ⟨u, -, h⟩ := Run.bind_ok h
        cases h
        cases has
      · split at h
        · obtain ⟨u, -, h⟩ := Run.bind_ok h
          cases h
          cases has
        · obtain ⟨r', rgsw, h⟩ := Run.bind_ok h
          cases h
          cases has
          exact assemble (exists_of_construct lwe rgsw)
  | contextParams params method =>
    obtain ⟨Q, -, h⟩ := Run.bind_ok h
    obtain ⟨l, lwe, h⟩ := Run.bind_ok h
    obtain ⟨r', rgsw, h⟩ := Run.bind_ok h
    cases h
    cases has
    exact assemble (exists_of_construct lwe rgsw)

end SingleKeyParams
end MultiKeyFHE
