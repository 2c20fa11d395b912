import MultiKeyFHE.Polynomial.Operations

/-!
# Runs of vector and polynomial operations

A memory of vectors and polynomials, with the cache of transform tables, and calls that work on it. A result is kept
beside its operands or assigned to the first of them. Every operand is read from the memory, so as long as the memory
is reduced the operations that assume reduced operands get them.
-/

namespace MultiKeyFHE
open NativeInteger NumberTheoreticTransform InPlace

/-- An operation and its `Eq` form. -/
inductive Form where
  | value | assign
  deriving DecidableEq, Repr

/-- Where a result goes. -/
def Form.keep {α : Type} (form : Form) (register : ℕ) (result : α) (memory : List α) : List α :=
  match form with
  | .value => memory ++ [result]
  | .assign => memory.set register result

/-- The operations of a vector. Other vectors are named by their registers. -/
inductive VectorOp where
  | modAdd (b : ℕ)
  | modSub (b : ℕ)
  | modMul (b : ℕ)
  | modAddScalar (b : ℕ)
  | modSubScalar (b : ℕ)
  | modMulScalar (b : ℕ)
  | modAddAtIndex (i b : ℕ)
  | switchModulus (modulus : ℕ)
  | multiplyAndRound (p q : ℕ)
  | divideAndRound (q : ℕ)

inductive PolyOp where
  | plus (rhs : ℕ)
  | plusScalar (element : ℕ)
  | minus (rhs : ℕ)
  | minusScalar (element : ℕ)
  | times (rhs : ℕ)
  | timesScalar (element : ℕ)
  | timesSigned (element : ℤ)
  | negate
  | automorphismTransform (k : ℕ)
  | automorphismTransformPrecomp (k : ℕ) (precomp : List ℕ)
  | transpose
  | switchFormat

structure Memory where
  vectors : List WordVector
  polys : List PolyImpl
  cache : Cache

variable (w : NativeSize) (c : Compiler) (arbitrarySwitchFormat : PolyImpl → Except Fault PolyImpl)

def VectorOp.run (form : Form) (vectors : List WordVector) (a : WordVector) : VectorOp → Except Fault WordVector
  | modAdd b => do
    let b ← load .outOfRange vectors b
    match form with
    | .value => a.modAdd w b
    | .assign => a.modAddEq w b
  | modSub b => do
    let b ← load .outOfRange vectors b
    match form with
    | .value => a.modSub w b
    | .assign => a.modSubEq w b
  | modMul b => do
    let b ← load .outOfRange vectors b
    match form with
    | .value => a.modMul w b
    | .assign => a.modMulEq w b
  | modAddScalar b => a.modAddScalar w b
  | modSubScalar b => a.modSubScalar w b
  | modMulScalar b => a.modMulScalar w b
  | modAddAtIndex i b => a.modAddAtIndex w i b
  | switchModulus modulus => a.switchModulus w modulus
  | multiplyAndRound p q => a.multiplyAndRound w p q
  | divideAndRound q => a.divideAndRound w q

def PolyOp.run (polys : List PolyImpl) (cache : Cache) (a : PolyImpl) : PolyOp → Except Fault PolyImpl × Cache
  | plus rhs => (do a.plus w (← load .outOfRange polys rhs), cache)
  | plusScalar element => (a.plusScalar w element, cache)
  | minus rhs => (do a.minus w (← load .outOfRange polys rhs), cache)
  | minusScalar element => (a.minusScalar w element, cache)
  | times rhs => (do a.times w (← load .outOfRange polys rhs), cache)
  | timesScalar element => (a.timesScalar w element, cache)
  | timesSigned element => (a.timesSigned w element, cache)
  | negate => (a.negate w, cache)
  | automorphismTransform k => (a.automorphismTransform w k, cache)
  | automorphismTransformPrecomp k precomp => (a.automorphismTransformPrecomp k precomp, cache)
  | transpose => (a.transpose w, cache)
  | switchFormat => a.switchFormat w c arbitrarySwitchFormat cache

inductive MemoryCall where
  | vector (form : Form) (register : ℕ) (op : VectorOp)
  | poly (form : Form) (register : ℕ) (op : PolyOp)

namespace MemoryCall

def step (call : MemoryCall) (memory : Memory) : Except Fault Memory :=
  match call with
  | vector form register op => do
    let a ← load .outOfRange memory.vectors register
    let result ← op.run w form memory.vectors a
    return { memory with vectors := form.keep register result memory.vectors }
  | poly form register op => do
    let a ← load .outOfRange memory.polys register
    let out := op.run w c arbitrarySwitchFormat memory.polys memory.cache a
    let result ← out.1
    return { memory with polys := form.keep register result memory.polys, cache := out.2 }

end MemoryCall

/-! ### Arguments and conditions -/

/-- The arguments that an operation takes: operands of one modulus and length, an index inside, a modulus that
`SetModulus` takes, a fraction `p / q` up to one, a divisor. A product is asked for moduli that a vector
supports; for larger ones `ComputeMu` shifts past its double word. -/
def VectorOp.Takes (vectors : List WordVector) (a : WordVector) : VectorOp → Prop
  | modAdd b | modSub b => ∃ y, vectors[b]? = some y ∧ a.Fits y
  | modMul b => ¬ modulusTooLarge w a.modulus ∧ ∃ y, vectors[b]? = some y ∧ a.Fits y
  | modAddScalar _ | modSubScalar _ | modMulScalar _ => True
  | modAddAtIndex i _ => i < a.values.length
  | switchModulus modulus => 2 ≤ modulus ∧ ¬ modulusTooLarge w modulus
  | multiplyAndRound p q => 1 ≤ q ∧ p ≤ q
  | divideAndRound q => 1 ≤ q

/-- Where the result is reduced. -/
def VectorOp.Stays (vectors : List WordVector) (a : WordVector) : VectorOp → Prop
  | modMul b => ∀ y, vectors[b]? = some y → a.ProductsFit w y
  | multiplyAndRound p q => a.RoundedProductsStay p q
  | divideAndRound q => a.QuotientsStay q
  | _ => True

/-- The same for polynomials: operands of one ring, products of evaluations, odd indices, and a primitive root for a
change of format. -/
def PolyOp.Takes (polys : List PolyImpl) (a : PolyImpl) : PolyOp → Prop
  | plus rhs => ∃ b, polys[rhs]? = some b ∧ b.params = a.params ∧ b.format = a.format
  | minus rhs => ∃ b, polys[rhs]? = some b ∧ b.params = a.params
  | times rhs => ¬ modulusTooLarge w a.params.modulus ∧
      ∃ b, polys[rhs]? = some b ∧ b.params = a.params ∧ a.format = .evaluation ∧ b.format = .evaluation
  | automorphismTransform k => k % 2 = 1 ∧ k < 2 ^ 32
  | automorphismTransformPrecomp k precomp => k % 2 = 1 ∧ a.format = .evaluation ∧
      a.params.ringDimension ≤ precomp.length ∧ ∀ i ∈ precomp, i < a.params.ringDimension
  | transpose => a.format = .evaluation
  | switchFormat => Admissible w ⟨a.params.rootOfUnity, a.params.cyclotomicOrder, a.params.modulus⟩
  | plusScalar _ | minusScalar _ | timesScalar _ | timesSigned _ | negate => True

def PolyOp.Stays (polys : List PolyImpl) (a : PolyImpl) : PolyOp → Prop
  | times rhs => ∀ b v u, polys[rhs]? = some b → a.Holds v → b.Holds u → v.ProductsFit w u
  | automorphismTransform k => a.AutomorphismStays k
  | transpose | switchFormat => HasTables a.params.cyclotomicOrder
  | _ => True

namespace MemoryCall

def Takes (call : MemoryCall) (memory : Memory) : Prop :=
  match call with
  | vector _ register op => ∃ a, memory.vectors[register]? = some a ∧ op.Takes w memory.vectors a
  | poly _ register op => ∃ a, memory.polys[register]? = some a ∧ op.Takes w memory.polys a

def Stays (call : MemoryCall) (memory : Memory) : Prop :=
  match call with
  | vector _ register op => ∀ a, memory.vectors[register]? = some a → op.Stays w memory.vectors a
  | poly _ register op => ∀ a, memory.polys[register]? = some a → op.Stays w memory.polys a

end MemoryCall

namespace Memory

/-- Every vector has a word for its modulus, every polynomial a ring, and the cached tables are those of primitive
roots. -/
structure Proper (memory : Memory) : Prop where
  vectors : ∀ a ∈ memory.vectors, 2 ≤ a.modulus ∧ a.modulus < 2 ^ w.bits
  polys : ∀ a ∈ memory.polys, a.params.IsRing w ∧ ∃ v, a.Holds v
  cache : ∃ ledger, Mirrors w memory.cache ledger ∧ PolyImpl.Rooted w ledger

/-- Every entry of every vector and polynomial is below its modulus. -/
structure Reduced (memory : Memory) : Prop where
  vectors : ∀ a ∈ memory.vectors, a.Reduced
  polys : ∀ a ∈ memory.polys, a.Reduced

/-- Every call of the run gets arguments that its operation takes. -/
def AllTake : List MemoryCall → Memory → Prop
  | [], _ => True
  | call :: rest, memory => call.Takes w memory ∧
      ∀ next, call.step w c arbitrarySwitchFormat memory = .ok next → AllTake rest next

/-- Every call meets the condition of its operation in the memory it is made in. -/
def AllStay : List MemoryCall → Memory → Prop
  | [], _ => True
  | call :: rest, memory => call.Stays w memory ∧
      ∀ next, call.step w c arbitrarySwitchFormat memory = .ok next → AllStay rest next

/-- Every call of the run finds a reduced memory, returns and leaves a reduced memory. -/
def StaysReduced : List MemoryCall → Memory → Prop
  | [], memory => memory.Reduced
  | call :: rest, memory => memory.Reduced ∧
      ∃ next, call.step w c arbitrarySwitchFormat memory = .ok next ∧ StaysReduced rest next

end Memory

/-! ### One call -/

variable {w c arbitrarySwitchFormat}

theorem Form.forall_mem_keep {α : Type} {P : α → Prop} (form : Form) (register : ℕ) {result : α} {memory : List α}
    (all : ∀ a ∈ memory, P a) (holds : P result) : ∀ a ∈ form.keep register result memory, P a := by
  intro a member
  cases form with
  | value =>
    rcases List.mem_append.mp member with old | new
    · exact all a old
    · rw [List.mem_singleton.mp new]
      exact holds
  | assign =>
    rcases List.mem_or_eq_of_mem_set member with old | rfl
    · exact all a old
    · exact holds

theorem Form.mem_keep {α : Type} (form : Form) {register : ℕ} (result : α) {memory : List α} {a : α}
    (found : memory[register]? = some a) : result ∈ form.keep register result memory := by
  have inside := (List.getElem?_eq_some_iff.mp found).1
  cases form with
  | value => exact List.mem_append_right _ (List.mem_singleton_self _)
  | assign => exact List.mem_set inside _

theorem load_found {α : Type} {memory : List α} {register : ℕ} {a : α} (found : memory[register]? = some a) :
    load Fault.outOfRange memory register = .ok a := by
  rw [load, found]

/-- The operation returns something proper, reduced just where `P` holds, or it fails and `P` does not hold. -/
def KeepsIff {α : Type} (run : Except Fault α) (proper reduced : α → Prop) (P : Prop) : Prop :=
  (∃ r, run = .ok r ∧ proper r ∧ (reduced r ↔ P)) ∨ (∃ fault, run = .error fault) ∧ ¬ P

theorem KeepsIff.congr {α : Type} {run : Except Fault α} {proper reduced : α → Prop} {P Q : Prop}
    (keeps : KeepsIff run proper reduced P) (same : P ↔ Q) : KeepsIff run proper reduced Q := by
  rwa [← propext same]

theorem WordVector.ReturnsReducedIff.keeps {run : Except Fault WordVector} {modulus length : ℕ} {P : Prop}
    (returns : ReturnsReducedIff run modulus length P) (two : 2 ≤ modulus) (word : modulus < 2 ^ w.bits) :
    KeepsIff run (fun r => 2 ≤ r.modulus ∧ r.modulus < 2 ^ w.bits) Reduced P := by
  obtain ⟨r, ended, rfl, -, reduced⟩ := returns
  exact .inl ⟨r, ended, ⟨two, word⟩, reduced⟩

theorem PolyImpl.ReturnsReducedIff.keeps {run : Except Fault PolyImpl} {params : ILParams} {P : Prop}
    (returns : ReturnsReducedIff run params P) (ring : params.IsRing w) :
    KeepsIff run (fun r => r.params.IsRing w ∧ ∃ v, r.Holds v) Reduced P := by
  obtain ⟨r, v, ended, rfl, holds, reduced⟩ := returns
  exact .inl ⟨r, ended, ⟨ring, v, holds⟩, holds.reduced.trans reduced⟩

theorem VectorOp.keeps (form : Form) {vectors : List WordVector} {a : WordVector} {op : VectorOp}
    (proper : ∀ x ∈ vectors, 2 ≤ x.modulus ∧ x.modulus < 2 ^ w.bits) (reduced : ∀ x ∈ vectors, x.Reduced)
    (member : a ∈ vectors) (takes : op.Takes w vectors a) :
    KeepsIff (op.run w form vectors a) (fun r => 2 ≤ r.modulus ∧ r.modulus < 2 ^ w.bits) WordVector.Reduced
      (op.Stays w vectors a) := by
  obtain ⟨two, word⟩ := proper a member
  have ha := reduced a member
  cases op with
  | modAdd b =>
    obtain ⟨y, found, fits⟩ := takes
    have hy := reduced y (List.mem_of_getElem? found)
    rw [VectorOp.run, load_found found]
    cases form <;> exact (WordVector.modAdd_returns word.le fits ha hy _).keeps two word
  | modSub b =>
    obtain ⟨y, found, fits⟩ := takes
    have hy := reduced y (List.mem_of_getElem? found)
    rw [VectorOp.run, load_found found]
    cases form <;> exact (WordVector.modSub_returns word.le fits ha hy _).keeps two word
  | modMul b =>
    obtain ⟨room, y, found, fits⟩ := takes
    have hy := reduced y (List.mem_of_getElem? found)
    have condition : a.ProductsFit w y ↔ VectorOp.Stays w vectors a (.modMul b) := by
      rw [VectorOp.Stays, found]
      simp
    rw [VectorOp.run, load_found found]
    cases form with
    | value => exact ((WordVector.modMul_returns two room fits ha hy (.inl rfl)).keeps two word).congr condition
    | assign => exact ((WordVector.modMul_returns two room fits ha hy (.inr (.inl rfl))).keeps two word).congr condition
  | modAddScalar b => exact (WordVector.modAddScalar_returns (by omega) word.le ha b).keeps two word
  | modSubScalar b => exact (WordVector.modSubScalar_returns (by omega) word.le ha b).keeps two word
  | modMulScalar b => exact (WordVector.modMulScalar_returns (by omega) word.le ha b).keeps two word
  | modAddAtIndex i b => exact (WordVector.modAddAtIndex_returns two word.le ha takes b).keeps two word
  | switchModulus modulus =>
    have below := lt_of_not_tooLarge takes.2
    exact (WordVector.switchModulus_returns ha takes.1 takes.2).keeps takes.1 (by omega)
  | multiplyAndRound p q => exact (WordVector.multiplyAndRound_returns two word ha takes.1 takes.2).keeps two word
  | divideAndRound q => exact (WordVector.divideAndRound_returns two word ha takes).keeps two word

theorem hasTables_cases {params : ILParams} (ring : params.IsRing w) :
    ∃ L, params.ringDimension = 2 ^ L ∧ params.cyclotomicOrder = 2 ^ (L + 1) ∧ L + 1 < 32 ∧
      (HasTables params.cyclotomicOrder ↔ 1 ≤ L ∧ L ≤ 24) := by
  obtain ⟨L, dimension, order, fits⟩ := ring.dimension
  exact ⟨L, dimension, order, fits, by rw [order, hasTables_iff]⟩

/-- In evaluation format an automorphism needs the order to have tables, because it reverses bits as they do. -/
theorem automorphism_evaluation_keeps {a : PolyImpl} {v : WordVector} {k : ℕ} (ring : a.params.IsRing w)
    (holds : a.Holds v) (reduced : v.Reduced) (odd : k % 2 = 1) (hk : k < 2 ^ 32) (format : a.format = .evaluation) :
    KeepsIff (a.automorphismTransform w k) (fun r => r.params.IsRing w ∧ ∃ v, r.Holds v) PolyImpl.Reduced
      (HasTables a.params.cyclotomicOrder) := by
  obtain ⟨L, dimension, order, fits, has⟩ := hasTables_cases ring
  by_cases bits : 1 ≤ L ∧ L ≤ 24
  · have returns := PolyImpl.automorphism_evaluation_returns (w := w) holds reduced odd hk format dimension order bits.1 bits.2
    exact (returns.keeps ring).congr (iff_of_true trivial (has.mpr bits))
  · have fails := PolyImpl.automorphism_evaluation_fails (w := w) holds odd format dimension order (by omega) (by omega)
    exact .inr ⟨⟨_, fails⟩, fun h => bits (has.mp h)⟩

theorem PolyOp.keeps (arbitrarySwitchFormat : PolyImpl → Except Fault PolyImpl) {polys : List PolyImpl} {cache : Cache} {a : PolyImpl} {op : PolyOp}
    (proper : ∀ x ∈ polys, x.params.IsRing w ∧ ∃ v, x.Holds v) (reduced : ∀ x ∈ polys, x.Reduced)
    (cached : ∃ ledger, Mirrors w cache ledger ∧ PolyImpl.Rooted w ledger) (member : a ∈ polys)
    (takes : op.Takes w polys a) :
    KeepsIff (op.run w c arbitrarySwitchFormat polys cache a).1 (fun r => r.params.IsRing w ∧ ∃ v, r.Holds v)
        PolyImpl.Reduced (op.Stays w polys a) ∧
      ∃ ledger, Mirrors w (op.run w c arbitrarySwitchFormat polys cache a).2 ledger ∧ PolyImpl.Rooted w ledger := by
  obtain ⟨ring, v, holds⟩ := proper a member
  have hv := holds.reduced.mp (reduced a member)
  -- Only a change of format touches the cache.
  cases op with
  | plus rhs =>
    obtain ⟨b, found, same, format⟩ := takes
    have memberB := List.mem_of_getElem? found
    obtain ⟨-, u, holdsB⟩ := proper b memberB
    refine ⟨?_, cached⟩
    rw [PolyOp.run, load_found found]
    exact (PolyImpl.plus_returns ring holds hv holdsB (holdsB.reduced.mp (reduced b memberB)) same format).keeps ring
  | plusScalar element => exact ⟨(PolyImpl.plusScalar_returns ring holds hv element).keeps ring, cached⟩
  | minus rhs =>
    obtain ⟨b, found, same⟩ := takes
    have memberB := List.mem_of_getElem? found
    obtain ⟨-, u, holdsB⟩ := proper b memberB
    refine ⟨?_, cached⟩
    rw [PolyOp.run, load_found found]
    exact (PolyImpl.minus_returns ring holds hv holdsB (holdsB.reduced.mp (reduced b memberB)) same).keeps ring
  | minusScalar element => exact ⟨(PolyImpl.minusScalar_returns ring holds hv element).keeps ring, cached⟩
  | times rhs =>
    obtain ⟨room, b, found, same, format, formatB⟩ := takes
    have memberB := List.mem_of_getElem? found
    obtain ⟨-, u, holdsB⟩ := proper b memberB
    refine ⟨?_, cached⟩
    have condition : v.ProductsFit w u ↔ PolyOp.Stays w polys a (.times rhs) := by
      constructor
      · intro fits b' v' u' found' holds' holdsB'
        obtain rfl := Option.some.inj (found.symm.trans found')
        obtain rfl := Option.some.inj (holds.values.symm.trans holds'.values)
        obtain rfl := Option.some.inj (holdsB.values.symm.trans holdsB'.values)
        exact fits
      · exact fun stays => stays b v u found holds holdsB
    rw [PolyOp.run, load_found found]
    exact ((PolyImpl.times_returns ring holds hv room holdsB (holdsB.reduced.mp (reduced b memberB)) same format
      formatB).keeps ring).congr condition
  | timesScalar element => exact ⟨(PolyImpl.timesScalar_returns ring holds hv element).keeps ring, cached⟩
  | timesSigned element => exact ⟨(PolyImpl.timesSigned_returns ring holds hv element).keeps ring, cached⟩
  | negate => exact ⟨(PolyImpl.negate_returns ring holds hv).keeps ring, cached⟩
  | automorphismTransform k =>
    refine ⟨?_, cached⟩
    rw [PolyOp.run, PolyOp.Stays, PolyImpl.AutomorphismStays]
    cases format : a.format with
    | evaluation => exact automorphism_evaluation_keeps ring holds hv takes.1 takes.2 format
    | coefficient => exact (PolyImpl.automorphism_coefficient_returns ring holds hv takes.1 format).keeps ring
  | automorphismTransformPrecomp k precomp =>
    obtain ⟨odd, format, long, inside⟩ := takes
    exact ⟨(PolyImpl.automorphismPrecomp_returns ring holds hv odd format long inside).keeps ring, cached⟩
  | transpose =>
    have format : a.format = .evaluation := takes
    obtain ⟨L, -, order, fits, -⟩ := hasTables_cases ring
    have word : 2 ^ (L + 1) < 2 ^ 32 := Nat.pow_lt_pow_right (by norm_num) fits
    have odd : (a.params.cyclotomicOrder - 1) % 2 = 1 := by
      rw [order, pow_succ]
      have : 1 ≤ 2 ^ L := Nat.one_le_two_pow
      omega
    refine ⟨?_, cached⟩
    rw [PolyOp.run, PolyImpl.transpose, if_neg (by simp [format])]
    exact automorphism_evaluation_keeps ring holds hv odd (by omega) format
  | switchFormat =>
    obtain ⟨ledger, mirrors, rooted⟩ := cached
    obtain ⟨out, cache', run, after, outcome⟩ := PolyImpl.switchFormat_cases (c := c) arbitrarySwitchFormat ring holds hv takes
      mirrors rooted
    rw [PolyOp.run, run]
    refine ⟨?_, after⟩
    rcases outcome with ⟨has, returns⟩ | ⟨none, rfl⟩
    · exact (returns.keeps ring).congr (iff_of_true trivial has)
    · exact .inr ⟨⟨_, rfl⟩, none⟩

/-! ### Runs -/

namespace Memory

/-- A call leaves a proper memory, and it returns with a reduced one just where it meets its condition. -/
theorem step_keeps (arbitrarySwitchFormat : PolyImpl → Except Fault PolyImpl) {call : MemoryCall} {memory : Memory} (proper : memory.Proper w) (reduced : memory.Reduced)
    (takes : call.Takes w memory) :
    KeepsIff (call.step w c arbitrarySwitchFormat memory) (Proper w) Reduced (call.Stays w memory) := by
  cases call with
  | vector form register op =>
    obtain ⟨a, found, takes⟩ := takes
    have member := List.mem_of_getElem? found
    have condition : op.Stays w memory.vectors a ↔ (MemoryCall.vector form register op).Stays w memory := by
      rw [MemoryCall.Stays, found]
      simp
    rw [MemoryCall.step, load_found found]
    rcases (VectorOp.keeps form proper.vectors reduced.vectors member takes).congr condition with
      ⟨r, run, good, entries⟩ | ⟨⟨fault, run⟩, fails⟩
    · refine .inl ⟨{ memory with vectors := form.keep register r memory.vectors }, ?_, ?_, ?_⟩
      · dsimp only [bind, Except.bind]
        rw [run]
        rfl
      · exact ⟨form.forall_mem_keep register proper.vectors good, proper.polys, proper.cache⟩
      · rw [← entries]
        exact ⟨fun after => after.vectors r (form.mem_keep r found),
          fun here => ⟨form.forall_mem_keep register reduced.vectors here, reduced.polys⟩⟩
    · refine .inr ⟨⟨fault, ?_⟩, fails⟩
      dsimp only [bind, Except.bind]
      rw [run]
  | poly form register op =>
    obtain ⟨a, found, takes⟩ := takes
    have member := List.mem_of_getElem? found
    have condition : op.Stays w memory.polys a ↔ (MemoryCall.poly form register op).Stays w memory := by
      rw [MemoryCall.Stays, found]
      simp
    obtain ⟨keeps, cached⟩ := PolyOp.keeps (c := c) arbitrarySwitchFormat proper.polys
      reduced.polys proper.cache member takes
    rw [MemoryCall.step, load_found found]
    rcases keeps.congr condition with ⟨r, run, good, entries⟩ | ⟨⟨fault, run⟩, fails⟩
    · refine .inl ⟨{ memory with
        polys := form.keep register r memory.polys
        cache := (op.run w c arbitrarySwitchFormat memory.polys memory.cache a).2 }, ?_, ?_, ?_⟩
      · dsimp only [bind, Except.bind]
        rw [run]
        rfl
      · exact ⟨proper.vectors, form.forall_mem_keep register proper.polys good, cached⟩
      · rw [← entries]
        exact ⟨fun after => after.polys r (form.mem_keep r found),
          fun here => ⟨reduced.vectors, form.forall_mem_keep register reduced.polys here⟩⟩
    · refine .inr ⟨⟨fault, ?_⟩, fails⟩
      dsimp only [bind, Except.bind]
      rw [run]

/-- A run returns and keeps the memory reduced just where every call of it meets the condition of its operation. -/
theorem reduced_along_runs_iff (w : NativeSize) (c : Compiler) (arbitrarySwitchFormat : PolyImpl → Except Fault PolyImpl)
    {calls : List MemoryCall} {memory : Memory} (proper : memory.Proper w) (reduced : memory.Reduced)
    (take : AllTake w c arbitrarySwitchFormat calls memory) :
    StaysReduced w c arbitrarySwitchFormat calls memory ↔ AllStay w c arbitrarySwitchFormat calls memory := by
  induction calls generalizing memory with
  | nil => exact iff_of_true reduced trivial
  | cons call rest ih =>
    rcases step_keeps (c := c) arbitrarySwitchFormat proper reduced take.1 with
      ⟨next, run, good, entries⟩ | ⟨⟨fault, run⟩, fails⟩
    · have later := take.2 next run
      constructor
      · rintro ⟨-, next', run', stays⟩
        obtain rfl := Except.ok.inj (run.symm.trans run')
        have after : next.Reduced := by
          cases rest with
          | nil => exact stays
          | cons => exact stays.1
        refine ⟨entries.mp after, fun other same => ?_⟩
        obtain rfl := Except.ok.inj (run.symm.trans same)
        exact (ih good after later).mp stays
      · rintro ⟨here, all⟩
        exact ⟨reduced, next, run, (ih good (entries.mpr here) later).mpr (all next run)⟩
    · refine iff_of_false ?_ fun stay => fails stay.1
      rintro ⟨-, next, run', -⟩
      rw [run] at run'
      cases run'

/-- One vector modulo seven, and `1 + 2 X` modulo `X ^ 2 + 1` and seventeen. -/
def small (v : ℕ) : Memory where
  vectors := [⟨[v], 7⟩]
  polys := [⟨⟨4, 2, 17, 4⟩, .coefficient, some ⟨[1, 2], 17⟩⟩]
  cache := {}

theorem small_proper (v : ℕ) : (small v).Proper .w64 := by
  refine ⟨?_, ?_, fun _ => none, mirrors_empty, fun _ _ _ found => by cases found⟩
  · intro a member
    rw [List.mem_singleton.mp member]
    exact ⟨by norm_num, show 7 < 2 ^ NativeSize.bits .w64 by decide⟩
  · intro a member
    rw [List.mem_singleton.mp member]
    exact ⟨⟨⟨1, rfl, rfl, by norm_num⟩, by norm_num, by norm_num, by decide⟩, ⟨[1, 2], 17⟩, rfl, rfl, rfl⟩

theorem small_reduced {v : ℕ} (below : v < 7) : (small v).Reduced := by
  refine ⟨?_, ?_⟩
  · intro a member x hx
    rw [List.mem_singleton.mp member] at hx ⊢
    rw [List.mem_singleton.mp hx]
    exact below
  · intro a member u values
    rw [List.mem_singleton.mp member] at values
    rw [← Option.some.inj values]
    decide

/-- `DivideAndRound` with this divisor, and a change of format. -/
def divideAndSwitch (q : ℕ) : List MemoryCall := [.vector .assign 0 (.divideAndRound q), .poly .assign 0 .switchFormat]

section
variable {v q r : ℕ} (divided : WordVector.divideAndRound .w64 ⟨[v], 7⟩ q = .ok ⟨[r], 7⟩)
include divided

theorem divide_step : (MemoryCall.vector .assign 0 (.divideAndRound q)).step .w64 .gnu .ok (small v) = .ok (small r) := by
  rw [MemoryCall.step, load_found (show (small v).vectors[0]? = some ⟨[v], 7⟩ from rfl)]
  dsimp only [bind, Except.bind, VectorOp.run]
  rw [divided]
  rfl

theorem divideAndSwitch_take (hq : 1 ≤ q) : AllTake .w64 .gnu .ok (divideAndSwitch q) (small v) := by
  refine ⟨⟨⟨[v], 7⟩, rfl, hq⟩, fun next run => ?_⟩
  obtain rfl := Except.ok.inj ((divide_step divided).symm.trans run)
  exact ⟨⟨⟨⟨4, 2, 17, 4⟩, .coefficient, some ⟨[1, 2], 17⟩⟩, rfl, admissible_four⟩, fun _ _ => trivial⟩

end

theorem halves_and_switches : StaysReduced .w64 .gnu .ok (divideAndSwitch 2) (small 5) := by
  have divided : WordVector.divideAndRound .w64 ⟨[5], 7⟩ 2 = .ok ⟨[6], 7⟩ := by decide
  refine (reduced_along_runs_iff .w64 .gnu .ok (small_proper 5) (small_reduced (by norm_num))
    (divideAndSwitch_take divided (by norm_num))).mpr ⟨?_, fun next run => ?_⟩
  · intro a found x hx upper
    obtain rfl := Option.some.inj found
    rw [List.mem_singleton.mp hx]
    decide
  · obtain rfl := Except.ok.inj ((divide_step divided).symm.trans run)
    refine ⟨fun a found => ?_, fun _ _ => trivial⟩
    obtain rfl := Option.some.inj found
    exact ⟨by norm_num, by norm_num⟩

/-- Minus one divided by four rounds to zero, which is stored as seven. -/
theorem rounding_stores_the_modulus :
    (small 6).Proper .w64 ∧ (small 6).Reduced ∧ AllTake .w64 .gnu .ok (divideAndSwitch 4) (small 6) ∧
      WordVector.divideAndRound .w64 ⟨[6], 7⟩ 4 = .ok ⟨[7], 7⟩ ∧
      ¬ StaysReduced .w64 .gnu .ok (divideAndSwitch 4) (small 6) := by
  have divided : WordVector.divideAndRound .w64 ⟨[6], 7⟩ 4 = .ok ⟨[7], 7⟩ := by decide
  refine ⟨small_proper 6, small_reduced (by norm_num), divideAndSwitch_take divided (by norm_num), divided, ?_⟩
  rintro ⟨-, next, run, after, -⟩
  obtain rfl := Except.ok.inj ((divide_step divided).symm.trans run)
  exact absurd (after.vectors ⟨[7], 7⟩ (List.mem_singleton_self _)) (by decide)

/-- The negacyclic image of a zero coefficient. -/
example : PolyImpl.automorphismTransform .w64 ⟨⟨4, 2, 17, 4⟩, .coefficient, some ⟨[1, 0], 17⟩⟩ 3 =
    .ok ⟨⟨4, 2, 17, 4⟩, .coefficient, some ⟨[1, 17], 17⟩⟩ := by decide

end Memory
end MultiKeyFHE
