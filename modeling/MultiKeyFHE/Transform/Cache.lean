import MultiKeyFHE.Transform.Negacyclic
import MultiKeyFHE.Library.KeyMap
import Mathlib.Logic.Function.Basic

/-!
# The cache of transform tables

`ChineseRemainderTransformFTTNat` keeps its tables in six static maps with the modulus as the key. A call builds
them where there are none of the right length; the root they were built from is not kept. The
ledger remembers it: it says for every modulus which order and root the tables are for.
-/

namespace MultiKeyFHE.NumberTheoreticTransform
open NativeInteger InPlace

/-- The six maps. -/
structure Cache where
  rootOfUnityReverseTableByModulus : KeyMap (List ℕ) := []
  rootOfUnityInverseReverseTableByModulus : KeyMap (List ℕ) := []
  cycloOrderInverseTableByModulus : KeyMap (List ℕ) := []
  rootOfUnityPreconReverseTableByModulus : KeyMap (List ℕ) := []
  rootOfUnityInversePreconReverseTableByModulus : KeyMap (List ℕ) := []
  cycloOrderInversePreconTableByModulus : KeyMap (List ℕ) := []

namespace Cache

def writePowers (filled : Filling) (modulus : ℕ) (cache : Cache) : Cache :=
  { cache with
    rootOfUnityReverseTableByModulus := cache.rootOfUnityReverseTableByModulus.write filled.table modulus
    rootOfUnityInverseReverseTableByModulus := cache.rootOfUnityInverseReverseTableByModulus.write filled.tableI modulus }

def writeConstants (tables : Tables) (modulus : ℕ) (cache : Cache) : Cache :=
  { cache with
    cycloOrderInverseTableByModulus :=
      cache.cycloOrderInverseTableByModulus.write tables.cycloOrderInverseTable modulus
    rootOfUnityPreconReverseTableByModulus :=
      cache.rootOfUnityPreconReverseTableByModulus.write tables.rootOfUnityPreconReverseTable modulus
    rootOfUnityInversePreconReverseTableByModulus :=
      cache.rootOfUnityInversePreconReverseTableByModulus.write tables.rootOfUnityInversePreconReverseTable modulus
    cycloOrderInversePreconTableByModulus :=
      cache.cycloOrderInversePreconTableByModulus.write tables.cycloOrderInversePreconTable modulus }

/-- The six subscripts. A missing table is an empty one. -/
def read (cache : Cache) (modulus : ℕ) : Tables where
  rootOfUnityReverseTable := (cache.rootOfUnityReverseTableByModulus.get? modulus).getD []
  rootOfUnityInverseReverseTable := (cache.rootOfUnityInverseReverseTableByModulus.get? modulus).getD []
  cycloOrderInverseTable := (cache.cycloOrderInverseTableByModulus.get? modulus).getD []
  rootOfUnityPreconReverseTable := (cache.rootOfUnityPreconReverseTableByModulus.get? modulus).getD []
  rootOfUnityInversePreconReverseTable := (cache.rootOfUnityInversePreconReverseTableByModulus.get? modulus).getD []
  cycloOrderInversePreconTable := (cache.cycloOrderInversePreconTableByModulus.get? modulus).getD []

/-- `mapSearch`: is there a table of the right length? -/
def hit (cache : Cache) (modulus cycloOrderHf : ℕ) : Prop :=
  (cache.rootOfUnityReverseTableByModulus.get? modulus).map List.length = some cycloOrderHf

instance (cache : Cache) (modulus cycloOrderHf : ℕ) : Decidable (cache.hit modulus cycloOrderHf) :=
  inferInstanceAs (Decidable (_ = _))

end Cache

variable (w : NativeSize) (c : Compiler)

/-- `PreCompute`. An exception leaves what was written before it. -/
def preCompute (rootOfUnity cycloOrder modulus : ℕ) (cache : Cache) : Except Fault Unit × Cache :=
  if cache.hit modulus (cycloOrder >>> 1) then (.ok (), cache)
  else
    match buildPowers w rootOfUnity cycloOrder modulus with
    | .error fault => (.error fault, cache)
    | .ok filled =>
      let cache := cache.writePowers filled modulus
      match buildConstants w cycloOrder modulus filled with
      | .error fault => (.error fault, cache)
      | .ok tables => (.ok (), cache.writeConstants tables modulus)

/-- `PreCompute` with vectors, after the check of their lengths. -/
def preComputeEach (cycloOrder : ℕ) : List (ℕ × ℕ) → Cache → Except Fault Unit × Cache
  | [], cache => (.ok (), cache)
  | (rootOfUnity, modulus) :: rest, cache =>
    match preCompute w rootOfUnity cycloOrder modulus cache with
    | (.error fault, cache) => (.error fault, cache)
    | (.ok (), cache) => preComputeEach cycloOrder rest cache

/-- What a transform does after its checks: the search, `PreCompute` where it failed, and the loops. -/
def withTables (rootOfUnity cycloOrder modulus : ℕ) (use : Tables → Except Fault WordVector) (cache : Cache) :
    Except Fault WordVector × Cache :=
  match preCompute w rootOfUnity cycloOrder modulus cache with
  | (.error fault, cache) => (.error fault, cache)
  | (.ok (), cache) => (use (cache.read modulus), cache)

def asVector (modulus : ℕ) (run : Except Fault Work) : Except Fault WordVector := do
  let work ← run
  return ⟨work.cells, modulus⟩

/-- The call of `NumberTheoreticTransformNat` inside each transform. -/
def useForwardInPlace (element : WordVector) (tables : Tables) : Except Fault WordVector :=
  asVector element.modulus (forwardTransformToBitReverseInPlacePrecon w c element.modulus
    tables.rootOfUnityReverseTable tables.rootOfUnityPreconReverseTable element.values)

def useForward (element result : WordVector) (tables : Tables) : Except Fault WordVector :=
  asVector element.modulus (forwardTransformToBitReversePrecon w element.modulus element.values
    tables.rootOfUnityReverseTable tables.rootOfUnityPreconReverseTable result.values.length)

def useInverseInPlace (element : WordVector) (tables : Tables) : Except Fault WordVector :=
  asVector element.modulus (inversePrecon w c element.modulus tables element.values)

/-- Copies `element` over the front of `result` before it transforms `result`. -/
def useInverse (element result : WordVector) (tables : Tables) : Except Fault WordVector := do
  NativeVector.setModulus w element.modulus
  if element.values.length > result.values.length then throw .outOfRange
  useInverseInPlace w c ⟨element.values ++ result.values.drop element.values.length, element.modulus⟩ tables

/-! ### Calls -/

/-- The four transforms, named as the class names them. -/
inductive Transform where
  | forwardTransformToBitReverseInPlace
  | forwardTransformToBitReverse
  | inverseTransformFromBitReverseInPlace
  | inverseTransformFromBitReverse
  deriving DecidableEq, Repr

namespace Transform

/-- The vector whose length is checked, with what is said if it is wrong. In place there is no `result`. -/
def target (element result : WordVector) : Transform → WordVector × String
  | forwardTransformToBitReverseInPlace => (element, "element size must be equal to CyclotomicOrder / 2")
  | forwardTransformToBitReverse => (result, "result size must be equal to CyclotomicOrder / 2")
  | inverseTransformFromBitReverseInPlace => (element, "element size must be equal to CyclotomicOrder / 2")
  | inverseTransformFromBitReverse => (result, "result size must be equal to CyclotomicOrder / 2")

def use (element result : WordVector) : Transform → Tables → Except Fault WordVector
  | forwardTransformToBitReverseInPlace => useForwardInPlace w c element
  | forwardTransformToBitReverse => useForward w element result
  | inverseTransformFromBitReverseInPlace => useInverseInPlace w c element
  | inverseTransformFromBitReverse => useInverse w c element result

end Transform

inductive Call where
  | transform (kind : Transform) (rootOfUnity cycloOrder : ℕ) (element result : WordVector)
  | preCompute (rootOfUnity cycloOrder modulus : ℕ)
  | preComputeAll (rootOfUnity : List ℕ) (cycloOrder : ℕ) (moduliChain : List ℕ)
  | reset

def Call.step (call : Call) (cache : Cache) : Except Fault (Option WordVector) × Cache :=
  match call with
  | .transform kind rootOfUnity cycloOrder element result =>
    if rootOfUnity = 1 ∨ rootOfUnity = 0 then (.ok (some element), cache)
    else if ¬ cycloOrder.isPowerOfTwo then (.error (.mathError "CyclotomicOrder is not a power of two"), cache)
    else if (kind.target element result).1.values.length ≠ cycloOrder >>> 1 then
      (.error (.mathError (kind.target element result).2), cache)
    else
      let out := withTables w rootOfUnity cycloOrder element.modulus (kind.use w c element result) cache
      (some <$> out.1, out.2)
  | .preCompute rootOfUnity cycloOrder modulus =>
    let out := NumberTheoreticTransform.preCompute w rootOfUnity cycloOrder modulus cache
    ((fun _ => none) <$> out.1, out.2)
  | .preComputeAll rootOfUnity cycloOrder moduliChain =>
    if rootOfUnity.length ≠ moduliChain.length then
      (.error (.mathError "size of root of unity and size of moduli chain not of same size"), cache)
    else
      let out := preComputeEach w cycloOrder (rootOfUnity.zip moduliChain) cache
      ((fun _ => none) <$> out.1, out.2)
  | .reset => (.ok none, {})

/-- What the calls return one after the other. -/
def outcomes : List Call → Cache → List (Except Fault (Option WordVector))
  | [], _ => []
  | call :: rest, cache => (call.step w c cache).1 :: outcomes rest (call.step w c cache).2

/-! ### The ledger -/

structure Triple where
  rootOfUnity : ℕ
  cycloOrder : ℕ
  modulus : ℕ

/-- The triples that a call names. -/
def Call.triples : Call → List Triple
  | .transform _ rootOfUnity cycloOrder element _ => [⟨rootOfUnity, cycloOrder, element.modulus⟩]
  | .preCompute rootOfUnity cycloOrder modulus => [⟨rootOfUnity, cycloOrder, modulus⟩]
  | .preComputeAll rootOfUnity cycloOrder moduliChain =>
    (rootOfUnity.zip moduliChain).map fun x => ⟨x.1, cycloOrder, x.2⟩
  | .reset => []

/-- The orders for which `PreCompute` gets through. -/
def HasTables (cycloOrder : ℕ) : Prop := 2 ^ 2 ≤ cycloOrder ∧ cycloOrder ≤ 2 ^ 25

instance (cycloOrder : ℕ) : Decidable (HasTables cycloOrder) := inferInstanceAs (Decidable (_ ∧ _))

/-- For every modulus the order and the root of its tables. -/
abbrev Ledger := ℕ → Option (ℕ × ℕ)

/-- A table stays as long as the order stays the same. -/
def Ledger.record (t : Triple) (ledger : Ledger) : Ledger :=
  if HasTables t.cycloOrder ∧ (ledger t.modulus).map Prod.fst ≠ some t.cycloOrder then
    Function.update ledger t.modulus (some (t.cycloOrder, t.rootOfUnity))
  else ledger

def Call.record (call : Call) (ledger : Ledger) : Ledger :=
  match call with
  | .transform kind rootOfUnity cycloOrder element result =>
    if (kind.target element result).1.values.length = cycloOrder >>> 1 then
      ledger.record ⟨rootOfUnity, cycloOrder, element.modulus⟩
    else ledger
  | .preCompute rootOfUnity cycloOrder modulus => ledger.record ⟨rootOfUnity, cycloOrder, modulus⟩
  | .preComputeAll rootOfUnity cycloOrder moduliChain =>
    if rootOfUnity.length ≠ moduliChain.length then ledger
    else (Call.preComputeAll rootOfUnity cycloOrder moduliChain).triples.foldl (fun ledger t => ledger.record t) ledger
  | .reset => fun _ => none

/-- A transform that gets as far as the tables names the root they were built from, where there are tables of its
order. -/
def Call.Agrees (call : Call) (ledger : Ledger) : Prop :=
  match call with
  | .transform kind rootOfUnity cycloOrder element result =>
    (kind.target element result).1.values.length = cycloOrder >>> 1 →
      ∀ cached, ledger element.modulus = some (cycloOrder, cached) → cached = rootOfUnity
  | _ => True

/-- Every transform of the run agrees with the tables it finds. -/
def Consistent : List Call → Ledger → Prop
  | [], _ => True
  | call :: rest, ledger => call.Agrees ledger ∧ Consistent rest (call.record ledger)

/-- A primitive root of a power of two order modulo a prime that a vector can have. -/
structure Admissible (w : NativeSize) (t : Triple) : Prop where
  prime : t.modulus.Prime
  room : ¬ modulusTooLarge w t.modulus
  order : ∃ L, t.cycloOrder = 2 ^ (L + 1)
  word : t.cycloOrder < 2 ^ 32
  lt : t.rootOfUnity < t.modulus
  root : IsPrimitiveRoot (t.rootOfUnity : ZMod t.modulus) t.cycloOrder

/-- What `PreCompute` itself needs of the three. -/
structure Buildable (w : NativeSize) (t : Triple) : Prop where
  suitable : Suitable w t.modulus
  odd : Nat.Coprime 2 t.modulus
  unit : t.rootOfUnity.Coprime t.modulus
  order : ∃ L, t.cycloOrder = 2 ^ (L + 1)
  word : t.cycloOrder < 2 ^ 32
  lt : t.rootOfUnity < t.modulus

variable {w c}

/-- The cache holds just the tables that the ledger says. -/
def Mirrors (w : NativeSize) (cache : Cache) (ledger : Ledger) : Prop :=
  ∀ modulus, match ledger modulus with
    | none => cache.rootOfUnityReverseTableByModulus.get? modulus = none
    | some (cycloOrder, rootOfUnity) => HasTables cycloOrder ∧ ∃ L, cycloOrder = 2 ^ (L + 1) ∧
        (cache.rootOfUnityReverseTableByModulus.get? modulus).map List.length = some (2 ^ L) ∧
        buildTables w rootOfUnity cycloOrder modulus = .ok (cache.read modulus)

theorem mirrors_empty : Mirrors w {} fun _ => none := fun _ => rfl

theorem Admissible.suitable {t : Triple} (admissible : Admissible w t) :
    Suitable w t.modulus ∧ Nat.Coprime 2 t.modulus ∧ t.rootOfUnity.Coprime t.modulus := by
  obtain ⟨L, order⟩ := admissible.order
  have root := admissible.root
  rw [order] at root
  obtain ⟨suitable, odd⟩ := suitable_of_prime admissible.prime (ne_two_of_primitive root) admissible.room
  exact ⟨suitable, odd, coprime_of_primitive admissible.prime root⟩

theorem Admissible.buildable {t : Triple} (admissible : Admissible w t) : Buildable w t := by
  obtain ⟨suitable, odd, unit⟩ := admissible.suitable
  exact ⟨suitable, odd, unit, admissible.order, admissible.word, admissible.lt⟩

theorem hasTables_iff {L : ℕ} : HasTables (2 ^ (L + 1)) ↔ 1 ≤ L ∧ L ≤ 24 := by
  unfold HasTables
  rw [Nat.pow_le_pow_iff_right (by norm_num), Nat.pow_le_pow_iff_right (by norm_num)]
  omega

/-- Between four and `2 ^ 25` the tables are built; for other orders the loop leaves the table. -/
theorem Buildable.built {t : Triple} (buildable : Buildable w t) :
    (¬ HasTables t.cycloOrder ∧ buildPowers w t.rootOfUnity t.cycloOrder t.modulus = .error .outOfRange) ∨
    HasTables t.cycloOrder ∧ ∃ L filled tables, t.cycloOrder = 2 ^ (L + 1) ∧ filled.table.length = 2 ^ L ∧
      buildPowers w t.rootOfUnity t.cycloOrder t.modulus = .ok filled ∧
      buildConstants w t.cycloOrder t.modulus filled = .ok tables ∧
      tables.rootOfUnityReverseTable = filled.table ∧ tables.rootOfUnityInverseReverseTable = filled.tableI := by
  obtain ⟨suitable, odd, unit, ⟨L, order⟩, word, lt⟩ := buildable
  have fits : L + 1 < 32 := by
    rw [order] at word
    exact (Nat.pow_lt_pow_iff_right (by norm_num)).mp word
  rw [order, hasTables_iff]
  by_cases built : 1 ≤ L ∧ L ≤ 24
  · obtain ⟨filled, inverse, powers, -, roots, -⟩ := buildPowers_ok suitable built.1 built.2 lt unit
    obtain ⟨tableCOI, u, constants, -⟩ := buildConstants_ok (L := L) suitable odd filled
    exact .inr ⟨built, L, filled, _, rfl, roots.length, powers, constants, rfl, rfl⟩
  · refine .inl ⟨built, ?_⟩
    rcases Nat.eq_zero_or_pos L with rfl | pos
    · exact buildPowers_two suitable unit
    · exact buildPowers_fails suitable (by omega) (by omega) unit

/-! ### What a call leaves -/

theorem read_written {filled : Filling} {tables : Tables} (cache : Cache) (modulus : ℕ)
    (left : tables.rootOfUnityReverseTable = filled.table)
    (right : tables.rootOfUnityInverseReverseTable = filled.tableI) :
    ((cache.writePowers filled modulus).writeConstants tables modulus).read modulus = tables := by
  simp [Cache.read, Cache.writePowers, Cache.writeConstants, ← left, ← right]

theorem read_written_other {filled : Filling} {tables : Tables} (cache : Cache) {modulus other : ℕ}
    (different : other ≠ modulus) :
    ((cache.writePowers filled modulus).writeConstants tables modulus).read other = cache.read other := by
  simp [Cache.read, Cache.writePowers, Cache.writeConstants, KeyMap.get?_write_other different]

theorem Mirrors.hit_iff {cache : Cache} {ledger : Ledger} (mirrors : Mirrors w cache ledger) (modulus L : ℕ) :
    cache.hit modulus (2 ^ (L + 1) >>> 1) ↔ ∃ root, ledger modulus = some (2 ^ (L + 1), root) := by
  have here := mirrors modulus
  rw [half_order, Cache.hit]
  cases recorded : ledger modulus with
  | none =>
    rw [recorded] at here
    simp [here]
  | some entry =>
    obtain ⟨cycloOrder, root⟩ := entry
    rw [recorded] at here
    obtain ⟨-, L', rfl, length, -⟩ := here
    rw [length]
    constructor
    · intro same
      have := Nat.pow_right_injective le_rfl (Option.some.inj same)
      exact ⟨root, by rw [this]⟩
    · rintro ⟨root', same⟩
      have := Nat.pow_right_injective le_rfl (Prod.mk.inj (Option.some.inj same)).1
      rw [Nat.add_right_cancel this]

theorem Mirrors.hasTables {cache : Cache} {ledger : Ledger} (mirrors : Mirrors w cache ledger) {modulus order root : ℕ}
    (recorded : ledger modulus = some (order, root)) :
    HasTables order ∧ buildTables w root order modulus = .ok (cache.read modulus) := by
  have here := mirrors modulus
  rw [recorded] at here
  obtain ⟨has, L, -, -, built⟩ := here
  exact ⟨has, built⟩

/-- Writing new tables updates the ledger at one modulus. -/
theorem Mirrors.write {cache : Cache} {ledger : Ledger} (mirrors : Mirrors w cache ledger) {modulus root L : ℕ}
    {filled : Filling} {tables : Tables} (has : HasTables (2 ^ (L + 1))) (length : filled.table.length = 2 ^ L)
    (powers : buildPowers w root (2 ^ (L + 1)) modulus = .ok filled)
    (constants : buildConstants w (2 ^ (L + 1)) modulus filled = .ok tables)
    (left : tables.rootOfUnityReverseTable = filled.table)
    (right : tables.rootOfUnityInverseReverseTable = filled.tableI) :
    Mirrors w ((cache.writePowers filled modulus).writeConstants tables modulus)
      (Function.update ledger modulus (some (2 ^ (L + 1), root))) := by
  intro other
  by_cases same : other = modulus
  · subst same
    rw [Function.update_self]
    refine ⟨has, L, rfl, ?_, ?_⟩
    · simp [Cache.writeConstants, Cache.writePowers, length]
    · rw [read_written cache other left right, buildTables, powers]
      exact constants
  · have here := mirrors other
    rw [Function.update_of_ne same, read_written_other cache same]
    simpa [Cache.writeConstants, Cache.writePowers, KeyMap.get?_write_other same] using here

/-- `PreCompute` keeps the ledger true, and afterwards the tables are those of the root in the ledger. -/
theorem Mirrors.preCompute {cache : Cache} {ledger : Ledger} (mirrors : Mirrors w cache ledger) {t : Triple}
    (buildable : Buildable w t) :
    ∃ out cache', NumberTheoreticTransform.preCompute w t.rootOfUnity t.cycloOrder t.modulus cache = (out, cache') ∧
      Mirrors w cache' (ledger.record t) ∧
      (out = .error .outOfRange ∧ ¬ HasTables t.cycloOrder ∨
        out = .ok () ∧ ∃ root, ledger.record t t.modulus = some (t.cycloOrder, root)) := by
  obtain ⟨⟨L, order⟩, missing⟩ : (∃ L, t.cycloOrder = 2 ^ (L + 1)) ∧
      (¬ cache.hit t.modulus (t.cycloOrder >>> 1) → (ledger t.modulus).map Prod.fst ≠ some t.cycloOrder) := by
    obtain ⟨L, order⟩ := buildable.order
    refine ⟨⟨L, order⟩, fun none same => none ?_⟩
    rw [order] at same ⊢
    obtain ⟨⟨order', root⟩, recorded, rfl⟩ := Option.map_eq_some_iff.mp same
    exact (mirrors.hit_iff _ L).mpr ⟨root, recorded⟩
  unfold NumberTheoreticTransform.preCompute
  by_cases hit : cache.hit t.modulus (t.cycloOrder >>> 1)
  · have found := hit
    rw [order] at found
    obtain ⟨root, recorded⟩ := (mirrors.hit_iff _ L).mp found
    have kept : ledger.record t = ledger := by
      unfold Ledger.record
      rw [if_neg]
      rintro ⟨-, other⟩
      exact other (by rw [recorded, order]; rfl)
    rw [if_pos hit, kept]
    exact ⟨_, _, rfl, mirrors, .inr ⟨rfl, root, by rw [recorded, order]⟩⟩
  · rw [if_neg hit]
    obtain ⟨none, powers⟩ | ⟨has, L', filled, tables, order', length, powers, constants, left, right⟩ := buildable.built
    · have kept : ledger.record t = ledger := if_neg fun both => none both.1
      rw [powers, kept]
      exact ⟨_, _, rfl, mirrors, .inl ⟨rfl, none⟩⟩
    · have added : ledger.record t = Function.update ledger t.modulus (some (t.cycloOrder, t.rootOfUnity)) :=
        if_pos ⟨has, missing hit⟩
      rw [powers]
      dsimp only
      rw [constants, added]
      rw [order'] at has powers constants ⊢
      exact ⟨_, _, rfl, mirrors.write has length powers constants left right,
        .inr ⟨rfl, t.rootOfUnity, Function.update_self ..⟩⟩

theorem Mirrors.preCompute_fst {cache : Cache} {ledger : Ledger} (mirrors : Mirrors w cache ledger) {t : Triple}
    (buildable : Buildable w t) :
    (NumberTheoreticTransform.preCompute w t.rootOfUnity t.cycloOrder t.modulus cache).1 =
      if HasTables t.cycloOrder then .ok () else .error .outOfRange := by
  obtain ⟨out, cache', run, after, ⟨rfl, none⟩ | ⟨rfl, root, recorded⟩⟩ := mirrors.preCompute buildable
  · rw [run, if_neg none]
  · rw [run, if_pos (after.hasTables recorded).1]

theorem Mirrors.preCompute_snd {cache : Cache} {ledger : Ledger} (mirrors : Mirrors w cache ledger) {t : Triple}
    (buildable : Buildable w t) :
    Mirrors w (NumberTheoreticTransform.preCompute w t.rootOfUnity t.cycloOrder t.modulus cache).2 (ledger.record t) := by
  obtain ⟨out, cache', run, after, -⟩ := mirrors.preCompute buildable
  rw [run]
  exact after

/-- Recording a triple that agrees with the ledger leaves its own root there. -/
theorem record_agrees {ledger : Ledger} {t : Triple} {root : ℕ}
    (agrees : ∀ cached, ledger t.modulus = some (t.cycloOrder, cached) → cached = t.rootOfUnity)
    (recorded : ledger.record t t.modulus = some (t.cycloOrder, root)) : root = t.rootOfUnity := by
  unfold Ledger.record at recorded
  split at recorded
  · rw [Function.update_self] at recorded
    exact (Prod.mk.inj (Option.some.inj recorded)).2.symm
  · exact agrees root recorded

theorem withTables_snd (root order modulus : ℕ) (use : Tables → Except Fault WordVector) (cache : Cache) :
    (withTables w root order modulus use cache).2 = (preCompute w root order modulus cache).2 := by
  rw [withTables]
  split <;> rename_i run <;> rw [run]

theorem Mirrors.withTables_fst {cache : Cache} {ledger : Ledger} (mirrors : Mirrors w cache ledger) {t : Triple}
    (buildable : Buildable w t)
    (agrees : ∀ cached, ledger t.modulus = some (t.cycloOrder, cached) → cached = t.rootOfUnity)
    (use : Tables → Except Fault WordVector) :
    (withTables w t.rootOfUnity t.cycloOrder t.modulus use cache).1 =
      (buildTables w t.rootOfUnity t.cycloOrder t.modulus >>= use) := by
  obtain ⟨out, cache', run, after, ⟨rfl, none⟩ | ⟨rfl, root, recorded⟩⟩ := mirrors.preCompute buildable
  · have fails : buildPowers w t.rootOfUnity t.cycloOrder t.modulus = .error .outOfRange := by
      rcases buildable.built with ⟨-, fails⟩ | ⟨has, -⟩
      · exact fails
      · exact absurd has none
    rw [withTables, run, buildTables, fails]
    rfl
  · have own := record_agrees agrees recorded
    subst own
    rw [withTables, run, (after.hasTables recorded).2]
    rfl

theorem Mirrors.preComputeEach {order : ℕ} (triples : List (ℕ × ℕ))
    (admissible : ∀ x ∈ triples, Admissible w ⟨x.1, order, x.2⟩) {cache : Cache} {ledger : Ledger}
    (mirrors : Mirrors w cache ledger) :
    (preComputeEach w order triples cache).1 =
        (if triples = [] ∨ HasTables order then .ok () else .error .outOfRange) ∧
      Mirrors w (preComputeEach w order triples cache).2
        ((triples.map fun x => (⟨x.1, order, x.2⟩ : Triple)).foldl (fun ledger t => ledger.record t) ledger) := by
  induction triples generalizing cache ledger with
  | nil => exact ⟨rfl, mirrors⟩
  | cons x rest ih =>
    obtain ⟨root, modulus⟩ := x
    have first := (admissible (root, modulus) (by simp)).buildable
    have out := mirrors.preCompute_fst first
    have after := mirrors.preCompute_snd first
    rw [NumberTheoreticTransform.preComputeEach, List.map_cons, List.foldl_cons]
    generalize NumberTheoreticTransform.preCompute w root order modulus cache = done at out after
    obtain ⟨out', cache'⟩ := done
    by_cases has : HasTables order
    · obtain rfl : out' = .ok () := by simpa [has] using out
      obtain ⟨outcome, last⟩ := ih (fun x member => admissible x (List.mem_cons_of_mem _ member)) after
      refine ⟨?_, last⟩
      dsimp only
      rw [outcome, if_pos (.inr has), if_pos (.inr has)]
    · obtain rfl : out' = .error .outOfRange := by simpa [has] using out
      -- None of the triples is recorded.
      have still : ∀ (triples : List Triple) (ledger : Ledger), (∀ t ∈ triples, t.cycloOrder = order) →
          triples.foldl (fun ledger t => ledger.record t) ledger = ledger := by
        intro triples
        induction triples with
        | nil => exact fun _ _ => rfl
        | cons t more ih =>
          intro ledger same
          rw [List.foldl_cons, Ledger.record, if_neg (by rw [same t (by simp)]; exact fun both => has both.1)]
          exact ih ledger fun t member => same t (List.mem_cons_of_mem _ member)
      have named : ∀ t ∈ rest.map fun x => (⟨x.1, order, x.2⟩ : Triple), t.cycloOrder = order := by
        intro t member
        obtain ⟨x, -, rfl⟩ := List.mem_map.mp member
        rfl
      rw [still _ _ named]
      exact ⟨by simp [has], after⟩

theorem Admissible.root_guard {t : Triple} (admissible : Admissible w t) : ¬ (t.rootOfUnity = 1 ∨ t.rootOfUnity = 0) := by
  have : Fact t.modulus.Prime := ⟨admissible.prime⟩
  obtain ⟨L, order⟩ := admissible.order
  have root := admissible.root
  rw [order] at root
  rintro (one | zero)
  · rw [one, Nat.cast_one] at root
    have trivial := root.eq_orderOf
    rw [orderOf_one] at trivial
    have : 2 ^ 1 ≤ 2 ^ (L + 1) := Nat.pow_le_pow_right two_pos (by omega)
    omega
  · rw [zero, Nat.cast_zero] at root
    exact root.ne_zero (by positivity) rfl

/-- A call keeps the ledger true, whichever root it names. -/
theorem Mirrors.after {cache : Cache} {ledger : Ledger} (mirrors : Mirrors w cache ledger) {call : Call}
    (admissible : ∀ t ∈ call.triples, Admissible w t) : Mirrors w (call.step w c cache).2 (call.record ledger) := by
  cases call with
  | transform kind root order element result =>
    have this := admissible ⟨root, order, element.modulus⟩ (List.mem_singleton_self _)
    have power : order.isPowerOfTwo := by
      obtain ⟨L, same⟩ := this.order
      exact ⟨L + 1, same⟩
    simp only [Call.step, Call.record, if_neg this.root_guard, not_true_eq_false, if_false, power]
    by_cases length : (kind.target element result).1.values.length = order >>> 1
    · rw [if_neg (not_not.mpr length), if_pos length]
      dsimp only
      rw [withTables_snd]
      exact mirrors.preCompute_snd this.buildable
    · rw [if_pos length, if_neg length]
      exact mirrors
  | preCompute root order modulus =>
    exact mirrors.preCompute_snd (admissible ⟨root, order, modulus⟩ (List.mem_singleton_self _)).buildable
  | preComputeAll roots order moduli =>
    simp only [Call.step, Call.record]
    by_cases length : roots.length ≠ moduli.length
    · rw [if_pos length, if_pos length]
      exact mirrors
    · rw [if_neg length, if_neg length]
      exact (mirrors.preComputeEach _ fun x member => admissible _ (List.mem_map_of_mem member)).2
  | reset => exact mirrors_empty

theorem Mirrors.step_fst {cache : Cache} {ledger : Ledger} (mirrors : Mirrors w cache ledger) {call : Call}
    (admissible : ∀ t ∈ call.triples, Admissible w t) (agrees : call.Agrees ledger) :
    (call.step w c cache).1 = (call.step w c {}).1 := by
  cases call with
  | transform kind root order element result =>
    have this := admissible ⟨root, order, element.modulus⟩ (List.mem_singleton_self _)
    have power : order.isPowerOfTwo := by
      obtain ⟨L, same⟩ := this.order
      exact ⟨L + 1, same⟩
    simp only [Call.step, if_neg this.root_guard, not_true_eq_false, if_false, power]
    by_cases length : (kind.target element result).1.values.length = order >>> 1
    · rw [if_neg (not_not.mpr length), if_neg (not_not.mpr length)]
      have here := mirrors.withTables_fst this.buildable (agrees length) (kind.use w c element result)
      have fresh := mirrors_empty.withTables_fst this.buildable (fun _ h => by cases h) (kind.use w c element result)
      exact congrArg (some <$> ·) (here.trans fresh.symm)
    · rw [if_pos length, if_pos length]
  | preCompute root order modulus =>
    have this := (admissible ⟨root, order, modulus⟩ (List.mem_singleton_self _)).buildable
    have here := mirrors.preCompute_fst this
    have fresh := mirrors_empty.preCompute_fst this
    exact congrArg ((fun _ => none) <$> ·) (here.trans fresh.symm)
  | preComputeAll roots order moduli =>
    simp only [Call.step]
    by_cases length : roots.length ≠ moduli.length
    · rw [if_pos length, if_pos length]
    · rw [if_neg length, if_neg length]
      have each : ∀ x ∈ roots.zip moduli, Admissible w ⟨x.1, order, x.2⟩ := fun x member =>
        admissible _ (List.mem_map_of_mem member)
      have here := (mirrors.preComputeEach _ each).1
      have fresh := (mirrors_empty.preComputeEach _ each).1
      exact congrArg ((fun _ => none) <$> ·) (here.trans fresh.symm)
  | reset => rfl

theorem outcomes_eq_map {calls : List Call} {cache : Cache} {ledger : Ledger} (mirrors : Mirrors w cache ledger)
    (admissible : ∀ call ∈ calls, ∀ t ∈ call.triples, Admissible w t) (consistent : Consistent calls ledger) :
    outcomes w c calls cache = calls.map fun call => (call.step w c {}).1 := by
  induction calls generalizing cache ledger with
  | nil => rfl
  | cons call rest ih =>
    have same := mirrors.step_fst (c := c) (admissible call (by simp)) consistent.1
    have after := mirrors.after (c := c) (admissible call (by simp))
    rw [outcomes, List.map_cons, same, ih after (fun call member => admissible call (List.mem_cons_of_mem _ member))
      consistent.2]

/-- The tables are a transparent cache for the runs in which every transform names the root of the tables it
finds. -/
theorem cache_transparent (w : NativeSize) (c : Compiler) {calls : List Call}
    (admissible : ∀ call ∈ calls, ∀ t ∈ call.triples, Admissible w t) (consistent : Consistent calls fun _ => none) :
    outcomes w c calls {} = calls.map fun call => (call.step w c {}).1 :=
  outcomes_eq_map mirrors_empty admissible consistent

theorem admissible_seventeen {root : ℕ} (below : root < 17)
    (primitive : (root : ZMod 17) ^ 4 = 1 ∧ ∀ l, 0 < l → l < 4 → (root : ZMod 17) ^ l ≠ 1) :
    Admissible .w64 ⟨root, 4, 17⟩ :=
  ⟨show Nat.Prime 17 by decide, show ¬ modulusTooLarge .w64 17 by decide, ⟨1, rfl⟩, by norm_num, below, IsPrimitiveRoot.mk_of_lt _ (by norm_num) primitive.1 primitive.2⟩

theorem admissible_four : Admissible .w64 ⟨4, 4, 17⟩ := by
  refine admissible_seventeen (by norm_num) ⟨by decide, ?_⟩
  intro l pos below
  interval_cases l <;> decide

theorem admissible_thirteen : Admissible .w64 ⟨13, 4, 17⟩ := by
  refine admissible_seventeen (by norm_num) ⟨by decide, ?_⟩
  intro l pos below
  interval_cases l <;> decide

/-- The transform of `X` with the root `root`. -/
def transformOfX (root : ℕ) : Call := .transform .forwardTransformToBitReverseInPlace root 4 ⟨[0, 1], 17⟩ ⟨[], 17⟩

theorem reset_between_roots :
    outcomes .w64 .gnu [transformOfX 4, .reset, transformOfX 13] {} =
      [transformOfX 4, .reset, transformOfX 13].map fun call => (call.step .w64 .gnu {}).1 := by
  refine cache_transparent .w64 .gnu ?_ ⟨?_, trivial, ?_, trivial⟩
  · intro call member t named
    simp only [List.mem_cons, List.not_mem_nil, or_false] at member
    rcases member with rfl | rfl | rfl
    · rw [List.mem_singleton.mp named]
      exact admissible_four
    · cases named
    · rw [List.mem_singleton.mp named]
      exact admissible_thirteen
  · intro _ cached found
    cases found
  · intro _ cached found
    cases found

/-- Without the `Reset` the second root gets the table of the first. -/
theorem second_root_gets_first_table :
    (∀ call ∈ [transformOfX 4, transformOfX 13], ∀ t ∈ call.triples, Admissible .w64 t) ∧
      outcomes .w64 .gnu [transformOfX 4, transformOfX 13] {} = [.ok (some ⟨[4, 13], 17⟩), .ok (some ⟨[4, 13], 17⟩)] ∧
      [transformOfX 4, transformOfX 13].map (fun call => (call.step .w64 .gnu {}).1) =
        [.ok (some ⟨[4, 13], 17⟩), .ok (some ⟨[13, 4], 17⟩)] ∧
      outcomes .w64 .gnu [transformOfX 4, transformOfX 13] {} ≠
        [transformOfX 4, transformOfX 13].map fun call => (call.step .w64 .gnu {}).1 := by
  refine ⟨?_, by decide +kernel, by decide +kernel, by decide +kernel⟩
  intro call member t named
  simp only [List.mem_cons, List.not_mem_nil, or_false] at member
  rcases member with rfl | rfl <;> rw [List.mem_singleton.mp named]
  · exact admissible_four
  · exact admissible_thirteen

end MultiKeyFHE.NumberTheoreticTransform
