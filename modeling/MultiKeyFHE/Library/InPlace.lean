import MultiKeyFHE.Library.Butterfly
import MultiKeyFHE.Library.Run

/-!
# Butterfly stages in place

A loop that rewrites an array two cells at a time. `sweep` is the pair of nested loops of one stage, with
its index arithmetic; an access past the end is a fault. Next to the cells the loops keep notes, one for
every intermediate value a butterfly wants to be known. When each butterfly refines a function on the values
of the cells, `sweep_ok` turns the loops into `Butterfly.pairs`.
-/

namespace InPlace
open Butterfly

structure Tape (α β : Type) where
  cells : List α
  notes : List β
  deriving DecidableEq

structure Outcome (α β : Type) where
  low : α
  high : α
  notes : List β

variable {ε α β : Type}

def load (fault : ε) (v : List α) (i : ℕ) : Except ε α :=
  match v[i]? with
  | some a => .ok a
  | none => .error fault

def store (fault : ε) (v : List α) (i : ℕ) (a : α) : Except ε (List α) :=
  if i < v.length then .ok (v.set i a) else .error fault

/-- Reads both cells and then writes both. -/
def pass (fault : ε) (f : α → α → Outcome α β) (lo hi : ℕ) (tape : Tape α β) : Except ε (Tape α β) := do
  let a ← load fault tape.cells lo
  let b ← load fault tape.cells hi
  let cells ← store fault tape.cells lo (f a b).low
  let cells ← store fault cells hi (f a b).high
  return ⟨cells, tape.notes ++ (f a b).notes⟩

/-- Block `i` of `m` starts at `i << shift`. Its butterfly is fetched once, with the index `m + i`. -/
def sweep (fault : ε) (fly : ℕ → Except ε (α → α → Outcome α β)) (m t shift : ℕ) (tape : Tape α β) :
    Except ε (Tape α β) :=
  (List.range m).foldlM (fun tape i => do
    let f ← fly (m + i)
    (List.range t).foldlM (fun tape j => pass fault f ((i <<< shift) + j) ((i <<< shift) + j + t) tape) tape) tape

/-- One cell at a time, as a loop over the whole array does it. -/
def each (fault : ε) (f : α → α) (n : ℕ) (tape : Tape α β) : Except ε (Tape α β) :=
  (List.range n).foldlM (fun tape i => do
    let a ← load fault tape.cells i
    let cells ← store fault tape.cells i (f a)
    return ⟨cells, tape.notes⟩) tape

theorem load_ok (fault : ε) {v : List α} {i : ℕ} (h : i < v.length) : load fault v i = .ok v[i] := by
  rw [load, List.getElem?_eq_getElem h]

theorem load_error {fault e : ε} {v : List α} {i : ℕ} (h : load fault v i = .error e) : e = fault := by
  unfold load at h
  split at h
  · cases h
  · cases h
    rfl

theorem load_ends (fault : ε) {v : List α} {i : ℕ} (h : i < v.length) {E : ε → Prop} :
    Run.Ends (load fault v i) (· = v[i]) E := by
  rw [load_ok fault h]
  exact Run.Ends.ok rfl

theorem store_ok (fault : ε) {v : List α} {i : ℕ} (h : i < v.length) (a : α) :
    store fault v i a = .ok (v.set i a) := if_pos h

theorem store_inv {fault : ε} {v v' : List α} {i : ℕ} {a : α} (run : store fault v i a = .ok v') :
    i < v.length ∧ v' = v.set i a := by
  unfold store at run
  split at run
  · exact ⟨‹_›, (Except.ok.inj run).symm⟩
  · cases run

theorem pass_ok (fault : ε) (f : α → α → Outcome α β) {lo hi : ℕ} {tape : Tape α β} (hlo : lo < tape.cells.length)
    (hhi : hi < tape.cells.length) :
    pass fault f lo hi tape = .ok ⟨(tape.cells.set lo (f tape.cells[lo] tape.cells[hi]).low).set hi
      (f tape.cells[lo] tape.cells[hi]).high, tape.notes ++ (f tape.cells[lo] tape.cells[hi]).notes⟩ := by
  simp only [pass, load_ok fault hlo, load_ok fault hhi, store_ok fault hlo]
  dsimp only [bind, Except.bind]
  rw [store_ok fault (by rw [List.length_set]; exact hhi)]
  rfl

theorem foldlM_range_ok {σ : Type} {f : σ → ℕ → Except ε σ} (P : ℕ → σ → Prop) {n : ℕ} {s : σ} (start : P 0 s)
    (step : ∀ i < n, ∀ s, P i s → ∃ t, f s i = .ok t ∧ P (i + 1) t) :
    ∃ t, (List.range n).foldlM f s = .ok t ∧ P n t := by
  induction n with
  | zero => exact ⟨s, rfl, start⟩
  | succ n ih =>
    obtain ⟨u, run, now⟩ := ih fun i hi => step i (by omega)
    obtain ⟨t, last, next⟩ := step n (by omega) u now
    refine ⟨t, ?_, next⟩
    rw [List.range_succ, List.foldlM_append, run]
    dsimp only [bind, Except.bind]
    rw [List.foldlM_cons, last]
    rfl

/-- The same for a run that got through. -/
theorem foldlM_range_inv {σ : Type} {f : σ → ℕ → Except ε σ} (P : ℕ → σ → Prop) {n : ℕ} {s t : σ}
    (run : (List.range n).foldlM f s = .ok t) (start : P 0 s)
    (step : ∀ i < n, ∀ s s', P i s → f s i = .ok s' → P (i + 1) s') : P n t := by
  induction n generalizing t with
  | zero =>
    cases run
    exact start
  | succ n ih =>
    rw [List.range_succ] at run
    obtain ⟨u, before, last⟩ := Run.foldlM_concat_ok run
    exact step n (by omega) u t (ih before fun i hi => step i (by omega)) last

/-- Every step of a run that got through was made, from a state that the steps keep. -/
theorem foldlM_range_step {σ : Type} {f : σ → ℕ → Except ε σ} (P : σ → Prop) {n i : ℕ} (hi : i < n) {s t : σ}
    (run : (List.range n).foldlM f s = .ok t) (start : P s) (step : ∀ i s s', P s → f s i = .ok s' → P s') :
    ∃ u v, P u ∧ f u i = .ok v := by
  induction n generalizing t with
  | zero => omega
  | succ n ih =>
    rw [List.range_succ] at run
    obtain ⟨u, before, last⟩ := Run.foldlM_concat_ok run
    rcases Nat.lt_succ_iff_lt_or_eq.mp hi with earlier | rfl
    · exact ih earlier before
    · exact ⟨u, t, foldlM_range_inv (fun _ => P) before start fun i _ => step i, last⟩

/-! ### Values -/

section Values
variable {K : Type*} [CommRing K] (P : α → Prop) (Q : β → Prop) (R : α → K)

/-- The value of every cell, `0` past the end. -/
def values (v : List α) (k : ℕ) : K := (v[k]?.map R).getD 0

/-- Every cell is admissible and so is every note. -/
structure Admissible (tape : Tape α β) : Prop where
  cells : ∀ a ∈ tape.cells, P a
  notes : ∀ s ∈ tape.notes, Q s

/-- On admissible cells a butterfly computes `g` on the values. -/
structure Refines (f : α → α → Outcome α β) (g : K → K → K × K) : Prop where
  low : ∀ a b, P a → P b → P (f a b).low ∧ R (f a b).low = (g (R a) (R b)).1
  high : ∀ a b, P a → P b → P (f a b).high ∧ R (f a b).high = (g (R a) (R b)).2
  notes : ∀ a b, P a → P b → ∀ s ∈ (f a b).notes, Q s

variable {P Q R}

theorem values_of_lt {v : List α} {k : ℕ} (h : k < v.length) : values R v k = R v[k] := by
  simp [values, h]

theorem values_of_le {v : List α} {k : ℕ} (h : v.length ≤ k) : values R v k = 0 := by
  simp [values, h]

theorem values_set {v : List α} {i : ℕ} (h : i < v.length) (a : α) (k : ℕ) :
    values R (v.set i a) k = if k = i then R a else values R v k := by
  by_cases same : k = i
  · rw [if_pos same, same, values, List.getElem?_set_self h]
    rfl
  · rw [if_neg same, values, values, List.getElem?_set_ne (fun e => same e.symm)]

/-- Admissible cells are determined by their values. -/
theorem cells_ext (injective : ∀ a b, P a → P b → R a = R b → a = b) {v v' : List α} (length : v.length = v'.length)
    (hv : ∀ a ∈ v, P a) (hv' : ∀ a ∈ v', P a) (same : values R v = values R v') : v = v' := by
  refine List.ext_getElem length fun k h h' => ?_
  have at_k := congrFun same k
  rw [values_of_lt h, values_of_lt h'] at at_k
  exact injective _ _ (hv _ (List.getElem_mem h)) (hv' _ (List.getElem_mem h')) at_k

theorem Refines.pass_ok {f : α → α → Outcome α β} {g : K → K → K × K} (refines : Refines P Q R f g) (fault : ε)
    (lo hi : ℕ) {tape : Tape α β} (good : Admissible P Q tape) (hlo : lo < tape.cells.length)
    (hhi : hi < tape.cells.length) :
    ∃ tape', pass fault f lo hi tape = .ok tape' ∧ tape'.cells.length = tape.cells.length ∧
      Admissible P Q tape' ∧ ∀ k, values R tape'.cells k =
        if k = hi then (g (values R tape.cells lo) (values R tape.cells hi)).2
        else if k = lo then (g (values R tape.cells lo) (values R tape.cells hi)).1
        else values R tape.cells k := by
  have plo := good.cells _ (List.getElem_mem hlo)
  have phi := good.cells _ (List.getElem_mem hhi)
  obtain ⟨lowGood, lowValue⟩ := refines.low _ _ plo phi
  obtain ⟨highGood, highValue⟩ := refines.high _ _ plo phi
  refine ⟨_, InPlace.pass_ok fault f hlo hhi, by simp, ⟨?_, ?_⟩, ?_⟩
  · intro a ha
    rcases List.mem_or_eq_of_mem_set ha with ha | rfl
    · rcases List.mem_or_eq_of_mem_set ha with ha | rfl
      · exact good.cells a ha
      · exact lowGood
    · exact highGood
  · intro s hs
    rcases List.mem_append.mp hs with hs | hs
    · exact good.notes s hs
    · exact refines.notes _ _ plo phi s hs
  · intro k
    rw [values_of_lt hlo, values_of_lt hhi, ← lowValue, ← highValue,
      values_set (by rw [List.length_set]; exact hhi), values_set hlo]

/-- How far a stage is: everything below `b + c` and the partners of the `c` cells at `b`. -/
def Written (t b c k : ℕ) : Prop := k < b + c ∨ b + t ≤ k ∧ k < b + t + c

instance (t b c k : ℕ) : Decidable (Written t b c k) := inferInstanceAs (Decidable (_ ∨ _))

/-- A pass over the next pair of a stage that makes `after` of `v`. -/
theorem Refines.pass_written {f : α → α → Outcome α β} {g : K → K → K × K} (refines : Refines P Q R f g) (fault : ε)
    {t b c : ℕ} {v after : ℕ → K} {tape : Tape α β} (good : Admissible P Q tape)
    (now : ∀ k < tape.cells.length, values R tape.cells k = if Written t b c k then after k else v k) (hc : c < t)
    (room : b + 2 * t ≤ tape.cells.length) (low : after (b + c) = (g (v (b + c)) (v (b + c + t))).1)
    (high : after (b + c + t) = (g (v (b + c)) (v (b + c + t))).2) :
    ∃ tape', pass fault f (b + c) (b + c + t) tape = .ok tape' ∧ tape'.cells.length = tape.cells.length ∧
      Admissible P Q tape' ∧
      ∀ k < tape.cells.length, values R tape'.cells k = if Written t b (c + 1) k then after k else v k := by
  obtain ⟨tape', run, length, good', done⟩ := refines.pass_ok fault (b + c) (b + c + t) good (by omega) (by omega)
  refine ⟨tape', run, length, good', fun k hk => ?_⟩
  have lower := now (b + c) (by omega)
  have upper := now (b + c + t) (by omega)
  rw [if_neg (by unfold Written; omega)] at lower upper
  rw [done k, lower, upper]
  split
  · rename_i same
    rw [same, if_pos (by unfold Written; omega), high]
  · split
    · rename_i same
      rw [same, if_pos (by unfold Written; omega), low]
    · rw [now k hk]
      -- No other cell changes sides.
      exact if_congr (by unfold Written; omega) rfl rfl

/-- The state in the middle of a stage that began with the values `v`. -/
structure Midway (P : α → Prop) (Q : β → Prop) (R : α → K) (g : ℕ → K → K → K × K) (t n : ℕ) (v : ℕ → K) (b c : ℕ)
    (tape : Tape α β) : Prop where
  length : tape.cells.length = n
  good : Admissible P Q tape
  values : ∀ k < n, values R tape.cells k = if Written t b c k then pairs g t v k else v k

theorem Midway.pass {f : α → α → Outcome α β} {g : ℕ → K → K → K × K} {t n i c : ℕ} {v : ℕ → K} {tape : Tape α β}
    (refines : Refines P Q R f (g i)) (fault : ε) (now : Midway P Q R g t n v (i * (2 * t)) c tape) (hc : c < t)
    (room : i * (2 * t) + 2 * t ≤ n) :
    ∃ tape', pass fault f (i * (2 * t) + c) (i * (2 * t) + c + t) tape = .ok tape' ∧
      Midway P Q R g t n v (i * (2 * t)) (c + 1) tape' := by
  obtain ⟨rfl, good, values⟩ := now
  obtain ⟨tape', run, length, good', after⟩ := refines.pass_written fault good values hc room (pairs_low g v i hc)
    (pairs_high g v i hc)
  exact ⟨tape', run, length, good', after⟩

theorem sweep_ok {fly : ℕ → Except ε (α → α → Outcome α β)} {g : ℕ → K → K → K × K} {m t shift : ℕ} {tape : Tape α β}
    (fault : ε) (spacing : 2 ^ shift = 2 * t) (length : tape.cells.length = m * (2 * t)) (good : Admissible P Q tape)
    (zero : ∀ i, g i 0 0 = (0, 0)) (flies : ∀ i < m, ∃ f, fly (m + i) = .ok f ∧ Refines P Q R f (g i)) :
    ∃ tape', sweep fault fly m t shift tape = .ok tape' ∧ tape'.cells.length = tape.cells.length ∧
      Admissible P Q tape' ∧ values R tape'.cells = pairs g t (values R tape.cells) := by
  have ht : 0 < t := by
    have : 0 < 2 ^ shift := by positivity
    omega
  obtain ⟨tape', run, last⟩ := foldlM_range_ok (fun i => Midway P Q R g t (m * (2 * t)) (values R tape.cells) (i * (2 * t)) 0)
    (f := fun tape i => do
      let f ← fly (m + i)
      (List.range t).foldlM (fun tape j => pass fault f ((i <<< shift) + j) ((i <<< shift) + j + t) tape) tape)
    (n := m) (s := tape)
    ⟨length, good, fun k _ => by rw [if_neg (by unfold Written; omega)]⟩ (by
      intro i hi state now
      obtain ⟨f, found, refines⟩ := flies i hi
      have next : (i + 1) * (2 * t) = i * (2 * t) + 2 * t := Nat.succ_mul _ _
      have room : i * (2 * t) + 2 * t ≤ m * (2 * t) := by
        rw [← next]
        exact Nat.mul_le_mul_right _ hi
      obtain ⟨done, run, all⟩ := foldlM_range_ok (n := t) (s := state)
        (fun c => Midway P Q R g t (m * (2 * t)) (values R tape.cells) (i * (2 * t)) c) now
        (fun c hc s before => before.pass refines fault hc room)
      refine ⟨done, ?_, all.length, all.good, fun k hk => ?_⟩
      · rw [found, Nat.shiftLeft_eq, spacing]
        exact run
      · rw [all.values k hk]
        exact if_congr (by rw [next]; unfold Written; omega) rfl rfl)
  refine ⟨tape', run, last.length.trans length.symm, last.good, funext fun k => ?_⟩
  by_cases hk : k < m * (2 * t)
  · rw [last.values k hk, if_pos (by unfold Written; omega)]
  · -- Past the end there are only zeros, in pairs.
    have beyond : ∀ k', k ≤ k' → values R tape.cells k' = 0 := fun k' h => values_of_le (by omega)
    rw [values_of_le (by rw [last.length]; omega)]
    obtain ⟨i, c, hc, rfl | rfl⟩ := exists_pair ht k
    · rw [pairs_low _ _ i hc, beyond _ le_rfl, beyond _ (by omega), zero]
    · have block : m ≤ i := by
        by_contra hlt
        have : i * (2 * t) + 2 * t ≤ m * (2 * t) := by
          rw [← Nat.succ_mul]
          exact Nat.mul_le_mul_right _ (by omega)
        omega
      have : m * (2 * t) ≤ i * (2 * t) := Nat.mul_le_mul_right _ block
      rw [pairs_high _ _ i hc, beyond _ le_rfl, values_of_le (by omega), zero]

theorem each_ok {f : α → α} {c : K} {tape : Tape α β} (fault : ε) (good : Admissible P Q tape)
    (once : ∀ a, P a → P (f a) ∧ R (f a) = c * R a) :
    ∃ tape', each fault f tape.cells.length tape = .ok tape' ∧ tape'.cells.length = tape.cells.length ∧
      Admissible P Q tape' ∧ values R tape'.cells = scale c (values R tape.cells) := by
  obtain ⟨tape', run, length, good', all⟩ := foldlM_range_ok (n := tape.cells.length) (s := tape)
    (fun i now => now.cells.length = tape.cells.length ∧ Admissible P Q now ∧
      ∀ k, values R now.cells k = if k < i then c * values R tape.cells k else values R tape.cells k)
    (f := fun tape i => do
      let a ← load fault tape.cells i
      let cells ← store fault tape.cells i (f a)
      return ⟨cells, tape.notes⟩)
    ⟨rfl, good, fun k => by simp⟩ (by
      rintro i hi now ⟨length, before, all⟩
      have here : i < now.cells.length := by omega
      obtain ⟨member, value⟩ := once _ (before.cells _ (List.getElem_mem here))
      refine ⟨⟨now.cells.set i (f now.cells[i]), now.notes⟩, ?_, by simpa using length, ⟨?_, before.notes⟩, ?_⟩
      · rw [load_ok fault here]
        dsimp only [bind, Except.bind]
        rw [store_ok fault here]
        rfl
      · intro a ha
        rcases List.mem_or_eq_of_mem_set ha with ha | rfl
        · exact before.cells a ha
        · exact member
      · intro k
        rw [values_set here, value, ← values_of_lt (R := R) here, all i, all k, if_neg (lt_irrefl i)]
        by_cases same : k = i
        · rw [if_pos same, if_pos (by omega), same]
        · rw [if_neg same]
          exact if_congr (by omega) rfl rfl)
  refine ⟨tape', run, length, good', funext fun k => ?_⟩
  rw [all k, scale]
  by_cases hk : k < tape.cells.length
  · rw [if_pos hk]
  · rw [if_neg hk, values_of_le (by omega), mul_zero]

end Values
end InPlace
