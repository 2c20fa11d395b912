import MultiKeyFHE.Transform.Network
import MultiKeyFHE.Transform.ReverseBits

/-!
# The transform tables

The critical section of `ChineseRemainderTransformFTTNat::PreCompute`: the powers of the root and of its inverse in
bit-reversed order, the inverses of the powers of two, and the prepared quotients of all of them. `ReverseBits`
is right up to 24 bits. With more, the second pass of the loop already writes past the end.
-/

namespace MultiKeyFHE.NumberTheoreticTransform
open NativeInteger InPlace Butterfly

/-- What the six maps hold for one modulus. -/
structure Tables where
  rootOfUnityReverseTable : List ℕ
  rootOfUnityInverseReverseTable : List ℕ
  cycloOrderInverseTable : List ℕ
  rootOfUnityPreconReverseTable : List ℕ
  rootOfUnityInversePreconReverseTable : List ℕ
  cycloOrderInversePreconTable : List ℕ
  deriving DecidableEq

/-- The state of the loop that fills the first two tables. -/
structure Filling where
  table : List ℕ
  tableI : List ℕ
  x : ℕ
  xinv : ℕ

variable (w : NativeSize)

def fill (rootOfUnity rootOfUnityInverse modulus mu msb : ℕ) (now : Filling) (i : ℕ) : Except Fault Filling := do
  let iinv := NbTheory.reverseBits i msb
  let table ← store .outOfRange now.table iinv now.x
  let tableI ← store .outOfRange now.tableI iinv now.xinv
  return {
    table := table
    tableI := tableI
    x := modMulMu w now.x rootOfUnity modulus mu
    xinv := modMulMu w now.xinv rootOfUnityInverse modulus mu }

/-- The first part, up to the two tables of powers. -/
def buildPowers (rootOfUnity cycloOrder modulus : ℕ) : Except Fault Filling := do
  let cycloOrderHf := cycloOrder >>> 1
  let msb := (cycloOrderHf - 1).size
  let mu ← computeMuChecked w modulus
  let rootOfUnityInverse ← modInverse w rootOfUnity modulus
  (List.range cycloOrderHf).foldlM (fill w rootOfUnity rootOfUnityInverse modulus mu msb)
    { table := List.replicate cycloOrderHf 0, tableI := List.replicate cycloOrderHf 0, x := 1, xinv := 1 }

/-- The second part: the inverses of the powers of two and all the prepared quotients. -/
def buildConstants (cycloOrder modulus : ℕ) (filled : Filling) : Except Fault Tables := do
  let msb := ((cycloOrder >>> 1) - 1).size
  let tableCOI ← (List.range (msb + 1)).mapM fun i => modInverse w (1 <<< i) modulus
  let preconTable ← filled.table.mapM fun b => prepModMulConst w b modulus
  let preconTableI ← filled.tableI.mapM fun b => prepModMulConst w b modulus
  let preconTableCOI ← tableCOI.mapM fun b => prepModMulConst w b modulus
  return {
    rootOfUnityReverseTable := filled.table
    rootOfUnityInverseReverseTable := filled.tableI
    cycloOrderInverseTable := tableCOI
    rootOfUnityPreconReverseTable := preconTable
    rootOfUnityInversePreconReverseTable := preconTableI
    cycloOrderInversePreconTable := preconTableCOI }

def buildTables (rootOfUnity cycloOrder modulus : ℕ) : Except Fault Tables := do
  let filled ← buildPowers w rootOfUnity cycloOrder modulus
  buildConstants w cycloOrder modulus filled

variable {w} {q L : ℕ}

/-- One of the two tables after `i` passes, with the power `x` that comes next. -/
structure Filled (q L : ℕ) (ψ : ZMod q) (i : ℕ) (table : List ℕ) (x : ℕ) : Prop where
  length : table.length = 2 ^ L
  lt : ∀ b ∈ table, b < q
  value : ∀ k < 2 ^ L, BitReversal.reverseBits L k < i → values (residue q) table k = twiddle ψ L k
  next_lt : x < q
  next : residue q x = ψ ^ i

theorem Filled.start (suitable : Suitable w q) (ψ : ZMod q) :
    Filled q L ψ 0 (List.replicate (2 ^ L) 0) 1 := by
  have two := suitable.two_le
  refine ⟨List.length_replicate, ?_, ?_, by omega, by rw [residue, Nat.cast_one, pow_zero]⟩
  · intro b hb
    rw [List.eq_of_mem_replicate hb]
    omega
  · intro k _ h
    omega

theorem Filled.step (suitable : Suitable w q) {i root : ℕ} {table : List ℕ} {x : ℕ}
    (now : Filled q L (residue q root) i table x) (hi : i < 2 ^ L) (hroot : root < q) :
    Filled q L (residue q root) (i + 1) (table.set (BitReversal.reverseBits L i) x)
      (modMulMu w x root q (computeMu w q)) := by
  have two := suitable.two_le
  have product : modMulMu w x root q (computeMu w q) = x * root % q :=
    modMulMu_eq suitable.two_le suitable.room suitable.barrett now.next_lt hroot
  refine ⟨by rw [List.length_set, now.length], ?_, ?_, ?_, ?_⟩
  · intro b hb
    rcases List.mem_or_eq_of_mem_set hb with hb | rfl
    · exact now.lt b hb
    · exact now.next_lt
  · intro k hk h
    rw [values_set (by rw [now.length]; exact BitReversal.reverseBits_lt L i)]
    by_cases here : k = BitReversal.reverseBits L i
    · rw [if_pos here, now.next, twiddle, here, BitReversal.reverseBits_reverseBits hi]
    · rw [if_neg here]
      refine now.value k hk (lt_of_le_of_ne (by omega) fun same => here ?_)
      rw [← same, BitReversal.reverseBits_reverseBits hk]
  · rw [product]
    exact Nat.mod_lt _ (by omega)
  · rw [product, residue, ZMod.natCast_mod, Nat.cast_mul, pow_succ, ← now.next]
    rfl

theorem Filled.roots {ψ : ZMod q} {table : List ℕ} {x : ℕ} (last : Filled q L ψ (2 ^ L) table x) :
    Roots q (2 ^ L) (twiddle ψ L) table :=
  ⟨last.length, last.lt, fun k hk => last.value k hk (BitReversal.reverseBits_lt L k)⟩

theorem fill_ok (suitable : Suitable w q) (hL : 1 ≤ L) (small : L ≤ 24) {root inverse : ℕ} (hroot : root < q)
    (hinverse : inverse < q) :
    ∃ filled, (List.range (2 ^ L)).foldlM (fill w root inverse q (computeMu w q) L)
        { table := List.replicate (2 ^ L) 0, tableI := List.replicate (2 ^ L) 0, x := 1, xinv := 1 } = .ok filled ∧
      Roots q (2 ^ L) (twiddle (residue q root) L) filled.table ∧
      Roots q (2 ^ L) (twiddle (residue q inverse) L) filled.tableI := by
  obtain ⟨filled, run, left, right⟩ := foldlM_range_ok (n := 2 ^ L)
    (s := ({ table := List.replicate (2 ^ L) 0, tableI := List.replicate (2 ^ L) 0, x := 1, xinv := 1 } : Filling))
    (f := fill w root inverse q (computeMu w q) L)
    (fun i now => Filled q L (residue q root) i now.table now.x ∧ Filled q L (residue q inverse) i now.tableI now.xinv)
    ⟨Filled.start suitable _, Filled.start suitable _⟩ (by
      rintro i hi now ⟨left, right⟩
      have inside := BitReversal.reverseBits_lt L i
      refine ⟨⟨_, _, _, _⟩, ?_, left.step suitable hi hroot, right.step suitable hi hinverse⟩
      simp only [fill, NbTheory.reverseBits_eq hL small hi]
      rw [store_ok _ (by rw [left.length]; exact inside), store_ok _ (by rw [right.length]; exact inside)]
      rfl)
  exact ⟨filled, run, left.roots, right.roots⟩

theorem fill_cases (root inverse mu msb : ℕ) (now : Filling) (i : ℕ) :
    fill w root inverse q mu msb now i = .error .outOfRange ∨
      ∃ next, fill w root inverse q mu msb now i = .ok next ∧ next.table.length = now.table.length := by
  simp only [fill, store]
  by_cases left : NbTheory.reverseBits i msb < now.table.length
  · by_cases right : NbTheory.reverseBits i msb < now.tableI.length
    · rw [if_pos left, if_pos right]
      exact .inr ⟨_, rfl, by rw [List.length_set]⟩
    · rw [if_pos left, if_neg right]
      exact .inl rfl
  · rw [if_neg left]
    exact .inl rfl

/-- From 25 bits on the second pass fails, whatever the root. -/
theorem fill_fails (large : 25 ≤ L) (fits : L ≤ 31) (root inverse mu : ℕ) {now : Filling}
    (length : now.table.length = 2 ^ L) :
    (List.range (2 ^ L)).foldlM (fill w root inverse q mu L) now = .error .outOfRange := by
  have far := NbTheory.le_reverseBits_one large fits
  obtain ⟨rest, hrest⟩ : ∃ rest, 2 ^ L = rest + 1 + 1 := ⟨2 ^ L - 2, by
    have : 2 ^ 1 ≤ 2 ^ L := Nat.pow_le_pow_right (by norm_num) (by omega)
    omega⟩
  rw [hrest, List.range_succ_eq_map, List.range_succ_eq_map, List.map_cons, List.foldlM_cons]
  obtain stopped | ⟨next, first, length'⟩ := fill_cases (w := w) (q := q) root inverse mu L now 0
  · rw [stopped]
    rfl
  · have second : fill w root inverse q mu L next 1 = .error .outOfRange := by
      rw [fill, store, if_neg (by omega)]
      rfl
    rw [first]
    dsimp only [bind, Except.bind]
    rw [List.foldlM_cons, second]
    rfl

/-- The tables of the root `ψ` with inverse `φ`; `u` is the inverse of the length. -/
structure Tables.Serve (w : NativeSize) (q L : ℕ) (ψ φ : ZMod q) (u : ℕ) (tables : Tables) : Prop where
  roots : Roots q (2 ^ L) (twiddle ψ L) tables.rootOfUnityReverseTable
  inverses : Roots q (2 ^ L) (twiddle φ L) tables.rootOfUnityInverseReverseTable
  precon : tables.rootOfUnityPreconReverseTable = tables.rootOfUnityReverseTable.map (quotient w q)
  preconInverses : tables.rootOfUnityInversePreconReverseTable = tables.rootOfUnityInverseReverseTable.map (quotient w q)
  cycloOrder : tables.cycloOrderInverseTable[L]? = some u
  preconCycloOrder : tables.cycloOrderInversePreconTable[L]? = some (quotient w q u)
  lt : u < q
  inverse : φ * ψ = 1
  length : residue q u * 2 ^ L = 1

theorem size_two_pow_sub_one (L : ℕ) : (2 ^ L - 1).size = L := by
  refine le_antisymm (Nat.size_le.mpr (Nat.sub_lt (by positivity) one_pos)) ?_
  cases L with
  | zero => exact Nat.zero_le _
  | succ L =>
    refine Nat.lt_size.mpr ?_
    have : 1 ≤ 2 ^ L := Nat.one_le_two_pow
    rw [pow_succ]
    omega

theorem prepare_all (suitable : Suitable w q) (table : List ℕ) :
    (table.mapM fun b => prepModMulConst w b q) = .ok (table.map (quotient w q)) := by
  have two := suitable.two_le
  exact Run.mapM_eq_map fun b _ => if_neg (by omega)

theorem residue_mul_eq_one {a b : ℕ} (h : a * b ≡ 1 [MOD q]) : residue q a * residue q b = 1 := by
  have := (ZMod.natCast_eq_natCast_iff _ _ _).mpr h
  rwa [Nat.cast_mul, Nat.cast_one] at this

theorem half_order (L : ℕ) : 2 ^ (L + 1) >>> 1 = 2 ^ L := by
  rw [Nat.shiftRight_eq_div_pow, pow_one, pow_succ, Nat.mul_div_cancel _ two_pos]

theorem buildPowers_ok (suitable : Suitable w q) (hL : 1 ≤ L) (small : L ≤ 24) {root : ℕ} (hroot : root < q)
    (unit : root.Coprime q) :
    ∃ filled inverse, buildPowers w root (2 ^ (L + 1)) q = .ok filled ∧ inverse * root ≡ 1 [MOD q] ∧
      Roots q (2 ^ L) (twiddle (residue q root) L) filled.table ∧
      Roots q (2 ^ L) (twiddle (residue q inverse) L) filled.tableI := by
  have word : 2 * q < 2 ^ w.bits := by
    have := suitable.lt
    omega
  obtain ⟨inverse, inverted, hinverse, product⟩ := modInverse_ok suitable.two_le word unit
  obtain ⟨filled, run, roots, inverses⟩ := fill_ok suitable hL small hroot hinverse
  refine ⟨filled, inverse, ?_, product, roots, inverses⟩
  simp only [buildPowers, half_order, size_two_pow_sub_one, computeMu_ok suitable, inverted]
  exact run

theorem buildConstants_ok (suitable : Suitable w q) (odd : Nat.Coprime 2 q) (filled : Filling) :
    ∃ tableCOI u, buildConstants w (2 ^ (L + 1)) q filled = .ok {
        rootOfUnityReverseTable := filled.table
        rootOfUnityInverseReverseTable := filled.tableI
        cycloOrderInverseTable := tableCOI
        rootOfUnityPreconReverseTable := filled.table.map (quotient w q)
        rootOfUnityInversePreconReverseTable := filled.tableI.map (quotient w q)
        cycloOrderInversePreconTable := tableCOI.map (quotient w q) } ∧
      tableCOI[L]? = some u ∧ u < q ∧ residue q u * 2 ^ L = 1 := by
  have word : 2 * q < 2 ^ w.bits := by
    have := suitable.lt
    omega
  obtain ⟨tableCOI, powers, all⟩ := Run.mapM_ok (f := fun i => modInverse w (1 <<< i) q) (l := List.range (L + 1))
    (fun i u => u < q ∧ residue q u * 2 ^ i = 1) (by
      intro i _
      obtain ⟨u, run, below, one⟩ := modInverse_ok (v := 1 <<< i) suitable.two_le word
        (by rw [Nat.one_shiftLeft]; exact odd.pow_left i)
      refine ⟨u, run, below, ?_⟩
      rw [Nat.one_shiftLeft] at one
      have := residue_mul_eq_one one
      rwa [residue, residue, Nat.cast_pow, Nat.cast_two] at this)
  have length : tableCOI.length = L + 1 := by rw [← all.length_eq, List.length_range]
  have entry := all.get (by rw [List.length_range]; omega) (show L < tableCOI.length by omega)
  rw [List.get_eq_getElem, List.get_eq_getElem, List.getElem_range] at entry
  refine ⟨tableCOI, tableCOI[L], ?_, List.getElem?_eq_getElem (by omega), entry.1, entry.2⟩
  simp only [buildConstants, half_order, size_two_pow_sub_one]
  rw [powers, prepare_all suitable filled.table, prepare_all suitable filled.tableI]
  dsimp only [bind, Except.bind]
  rw [prepare_all suitable tableCOI]
  rfl

theorem buildTables_ok (suitable : Suitable w q) (hL : 1 ≤ L) (small : L ≤ 24) (odd : Nat.Coprime 2 q) {root : ℕ}
    (hroot : root < q) (unit : root.Coprime q) :
    ∃ tables φ u, buildTables w root (2 ^ (L + 1)) q = .ok tables ∧ tables.Serve w q L (residue q root) φ u := by
  obtain ⟨filled, inverse, powers, product, roots, inverses⟩ := buildPowers_ok suitable hL small hroot unit
  obtain ⟨tableCOI, u, constants, last, below, one⟩ := buildConstants_ok (L := L) suitable odd filled
  have built : buildTables w root (2 ^ (L + 1)) q = buildConstants w (2 ^ (L + 1)) q filled := by
    rw [buildTables, powers]
    rfl
  have prepared : (tableCOI.map (quotient w q))[L]? = some (quotient w q u) := by
    rw [List.getElem?_map, last]
    rfl
  exact ⟨_, residue q inverse, u, built.trans constants,
    { roots, inverses, precon := rfl, preconInverses := rfl, cycloOrder := last, preconCycloOrder := prepared
      lt := below, inverse := residue_mul_eq_one product, length := one }⟩

theorem buildPowers_fails (suitable : Suitable w q) (large : 25 ≤ L) (fits : L ≤ 31) {root : ℕ} (unit : root.Coprime q) :
    buildPowers w root (2 ^ (L + 1)) q = .error .outOfRange := by
  have word : 2 * q < 2 ^ w.bits := by
    have := suitable.lt
    omega
  obtain ⟨inverse, inverted, -, -⟩ := modInverse_ok suitable.two_le word unit
  simp only [buildPowers, half_order, size_two_pow_sub_one, computeMu_ok suitable, inverted]
  exact fill_fails large fits root inverse _ List.length_replicate

theorem buildPowers_two (suitable : Suitable w q) {root : ℕ} (unit : root.Coprime q) :
    buildPowers w root (2 ^ (0 + 1)) q = .error .outOfRange := by
  have word : 2 * q < 2 ^ w.bits := by
    have := suitable.lt
    omega
  obtain ⟨inverse, inverted, -, -⟩ := modInverse_ok suitable.two_le word unit
  simp only [buildPowers, computeMu_ok suitable, inverted]
  rfl

end MultiKeyFHE.NumberTheoreticTransform
