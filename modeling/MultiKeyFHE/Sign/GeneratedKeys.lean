import MultiKeyFHE.Context.GadgetTable
import MultiKeyFHE.Gate.LookUpNoise
import MultiKeyFHE.Sign.Digits

/-!
# Signs and digits under generated keys

With time optimization `BTKeyGen` makes a key for each base of the gadget table, and `EvalSign` and `EvalDecomp` change from
one to another while the modulus shrinks. From encryption to decryption they give the highest bit of a large message, and
digits that make it up.
-/

namespace KeyMap
variable {α : Type} {map : KeyMap α}

theorem get?_touch_of_some {value x : α} {k j : ℕ} (found : map.get? j = some x) : (touch value k map).get? j = some x := by
  unfold touch
  cases here : map.get? k with
  | some old => exact found
  | none =>
    have other : j ≠ k := by
      rintro rfl
      rw [here] at found
      cases found
    exact (get?_write_other other).trans found

/-- A map of what `f` gives for the keys of a list. -/
theorem get?_tabulate {f : ℕ → α} {l : List ℕ} {k : ℕ} {x : α} :
    get? (l.map fun k => (k, f k)) k = some x ↔ k ∈ l ∧ f k = x := by
  induction l with
  | nil => simp [get?]
  | cons first rest ih =>
    rw [List.map_cons, get?]
    by_cases here : first = k
    · subst here
      simp
    · rw [if_neg here, ih, List.mem_cons]
      simp [Ne.symm here]

end KeyMap

namespace MultiKeyFHE
open Negacyclic NegPoly NativeInteger NativeVector Circle RingGSW

/-- What `Change_BaseG` leaves of the parameters for a base of the table. -/
def RingGSWCryptoParams.withBase (plat : Platform) (p : RingGSWCryptoParams) (base : ℕ) : RingGSWCryptoParams :=
  { p with baseG := base, digitsG := plat.digitCount p.Q base, Gpower := (p.Gpower_map.get? base).getD [] }

instance {plat : Platform} {p : RingGSWCryptoParams} [some : NeZero p.N] {base : ℕ} : NeZero (p.withBase plat base).N := some

instance {plat : Platform} {p : RingGSWCryptoParams} [some : NeZero p.q] {base : ℕ} : NeZero (p.withBase plat base).q := some

instance {plat : Platform} {p : RingGSWCryptoParams} [some : NeZero p.Q] {base : ℕ} : NeZero (p.withBase plat base).Q := some

namespace LWEGate
open Gadget

/-! ### Gadgets in use -/

section Gadgets
variable {plat : Platform} {g g' : Gadget}

/-- Whatever bases were in use before, a base of the table has its table. -/
theorem Rebased.keeps (rebased : Rebased plat g g') (consistent : g.Consistent plat) :
    g'.Consistent plat ∧ g'.Q = g.Q ∧ ∀ base table, g.Gpower_map.get? base = some table → g'.Gpower_map.get? base = some table := by
  induction rebased with
  | start => exact ⟨consistent, rfl, fun _ _ found => found⟩
  | change base before ih =>
    obtain ⟨aligned, same, entries⟩ := ih
    refine ⟨aligned.changeBaseG base, (changeBaseG_Q base).trans same, fun base' table found => ?_⟩
    unfold Gadget.changeBaseG
    split
    · exact KeyMap.get?_touch_of_some (entries base' table found)
    · exact entries base' table found

theorem Rebased.read_eq {p : RingGSWCryptoParams} (rebased : Rebased plat p.toGadget g') (consistent : p.toGadget.Consistent plat)
    (listed : g'.baseG ∈ p.Gpower_map.keys) : g'.read = (p.withBase plat g'.baseG).toGadget.read := by
  obtain ⟨aligned, same, entries⟩ := rebased.keeps consistent
  obtain ⟨table, found⟩ := KeyMap.exists_get?_of_mem listed
  have there := entries _ table found
  obtain ⟨powers, digits⟩ := aligned (by
    intro empty
    rw [empty] at there
    cases there)
  rw [there] at powers
  rw [Gadget.read, Gadget.read, powers, digits, same]
  simp only [RingGSWCryptoParams.withBase, found]

end Gadgets

/-! ### Keys for every base -/

section Keys
variable {p : RingGSWCryptoParams} [NeZero p.N] [NeZero p.q] {n : ℕ}

/-- `BTKeyGen` with time optimization, with what each `KeyGen` draws. -/
def btKeyGen (w : NativeSize) (plat : Platform) (qKS baseKS : ℕ) (sk : LWEPrivateKey n)
    (draws : (base : ℕ) → KeyGenDraws (p.withBase plat base) n) : KeyMap (EvalKeys (SingleKeyParams.ofRing p n qKS baseKS)) :=
  p.Gpower_map.keys.map fun base =>
    let key := (draws base).keyGen w plat qKS baseKS sk
    (base, { BSkey := key.BSkey, KSkey := key.KSkey })

/-- The table of the constructor for large precision, keys for each of its bases, and noise that stays below a quarter of
`beta` at every modulus between `q` and `mod`. -/
structure MakesKeyMap (w : NativeSize) (plat : Platform) (p : RingGSWCryptoParams) [NeZero p.N] [NeZero p.q] (qKS baseKS : ℕ)
    (sk : LWEPrivateKey n) (draws : (base : ℕ) → KeyGenDraws (p.withBase plat base) n) (gBits : ℕ → ℕ) (S E : ℝ) (E' : ℚ)
    (beta mod : ℕ) : Prop where
  built : p.BuiltFrom plat true p.Q p.baseG
  listed : p.baseG ∈ baseGlist
  ginx : p.method = .GINX
  nonneg : 0 ≤ E
  makes : ∀ base ∈ baseGlist, MakesKeys w plat (p.withBase plat base) qKS baseKS sk (draws base) (gBits base) S E E'
  margin : ∀ base ∈ baseGlist, ∀ M, p.q ∣ M → M ∣ mod →
    lookUpBound plat (p.withBase plat base) qKS baseKS sk (draws base) (gBits base) S E E' M < beta / 4
  switch : (1 / 2 + (mod + 1) / 2 ^ 50) * (1 + ∑ i, |sk.signed i| : ℤ) < (beta / 4 : ℚ)

namespace MakesKeyMap
variable {w : NativeSize} {plat : Platform} {qKS baseKS : ℕ} {sk : LWEPrivateKey n}
  {draws : (base : ℕ) → KeyGenDraws (p.withBase plat base) n} {gBits : ℕ → ℕ} {S E : ℝ} {E' : ℚ} {beta mod : ℕ}
  (made : MakesKeyMap w plat p qKS baseKS sk draws gBits S E E' beta mod)
include made

theorem keys_eq : p.Gpower_map.keys = baseGlist := by
  rw [made.built.2]
  rfl

theorem consistent : p.toGadget.Consistent plat := by
  rw [made.built.2]
  exact preCompute_consistent true p.Q p.baseG

theorem key : sk.Generated w := (made.makes p.baseG made.listed).switches.key

/-- The key that is found for the base in use finds values at every modulus of the rounds. -/
theorem bootstraps {g' : Gadget} {EK : EvalKeys (SingleKeyParams.ofRing p n qKS baseKS)} {c M : ℕ} (rebased : Rebased plat p.toGadget g')
    (found : (btKeyGen w plat qKS baseKS sk draws).get? g'.baseG = some EK) (even : 2 ∣ c) (pos : 0 < c) (divides : c ∣ p.q)
    (multiple : p.q ∣ M) (inside : M ∣ mod) :
    BootstrapsAt (bootstrapFunc w plat doubleRound g' EK) sk.signed beta c M := by
  obtain ⟨listed, rfl⟩ := KeyMap.get?_tabulate.mp found
  have read := rebased.read_eq made.consistent listed
  rw [made.keys_eq] at listed
  have makes := made.makes _ listed
  have word := lt_of_not_tooLarge makes.admissible.fits
  have turns : TurnsAt (p.withBase plat g'.baseG) c := .inr ⟨made.ginx, divides.trans makes.admissible.divides⟩
  obtain ⟨δ, above, below⟩ := exists_rat_btwn (lt_sub_iff_add_lt'.mpr (made.margin _ listed M multiple inside))
  have faithful := makes.faithfulAt made.nonneg turns read (Rat.cast_lt.mp above)
  obtain ⟨half, rfl⟩ := even
  have same : FaithfulAt (P := SingleKeyParams.ofRing p n qKS baseKS) w plat doubleRound g'
      { BSkey := ((draws g'.baseG).keyGen w plat qKS baseKS sk).BSkey, KSkey := ((draws g'.baseG).keyGen w plat qKS baseKS sk).KSkey }
      (2 * half) M (rotationBound plat (p.withBase plat g'.baseG) n (gBits g'.baseG) S E) δ (draws g'.baseG).skNPoly sk.signed :=
    ⟨faithful.rotates, faithful.switches⟩
  exact (same.looksUp rfl (by omega) (makes.divides_of_turns turns) makes.admissible.narrow makes.covers.neZero.pos
    (show p.Q < 2 ^ w.bits from lt_of_le_of_lt (Nat.le_mul_of_pos_right p.Q (by norm_num)) word) (lt_sub_iff_add_lt'.mp below).le).bootstrapsAt

theorem get?_of_listed {base : ℕ} (listed : base ∈ baseGlist) : ∃ EK, (btKeyGen w plat qKS baseKS sk draws).get? base = some EK :=
  ⟨_, KeyMap.get?_tabulate.mpr ⟨made.keys_eq ▸ listed, rfl⟩⟩

theorem switched {next : ℕ} (le : next ≤ mod) {ct : LWECiphertext n} (reduced : LWE.Reduced ct) :
    Within next (beta / 4) (LWE.phase sk.signed (LWE.modSwitch doubleRound next ct)) (LWE.phase sk.signed ct * next / ct.modulus) := by
  have positive : 0 < ct.modulus := Nat.zero_lt_of_lt reduced.b_lt
  refine (LWE.phase_modSwitch_near reduced (doubleRound_within next positive) sk.signed).within (lt_of_le_of_lt ?_ made.switch)
  have sums : (0 : ℚ) ≤ (1 + ∑ i, |sk.signed i| : ℤ) := by
    exact_mod_cast add_nonneg zero_le_one (Finset.sum_nonneg fun i _ => abs_nonneg _)
  have wider : ((next : ℚ) + 1) / 2 ^ 50 ≤ (mod + 1) / 2 ^ 50 := by
    have : (next : ℚ) ≤ mod := by exact_mod_cast le
    gcongr
  exact mul_le_mul_of_nonneg_right (by linarith) sums

/-- What the rounds assume of their parts. -/
theorem idealRounds {b c : ℕ} (power : p.q = 2 ^ b) (powerMod : mod = 2 ^ c) (pos : 0 < beta) (quarters : 4 * beta ∣ p.q)
    (more : p.q ≤ mod) (word : 2 * mod ≤ 2 ^ w.bits) (fits : ¬ modulusTooLarge w p.q) :
    IdealRounds (P := SingleKeyParams.ofRing p n qKS baseKS) w plat doubleRound (btKeyGen w plat qKS baseKS sk draws) p.toGadget
      sk.signed beta mod := by
  refine .of_bootstraps power powerMod pos quarters more fits word (made.get?_of_listed made.listed) (fun _ => ?_) ?_ ?_
  · exact ⟨made.get?_of_listed (by decide), made.get?_of_listed (by decide)⟩
  · intro g' EK c' M rebased found low divides multiple inside
    obtain ⟨j, -, rfl⟩ := (Nat.dvd_prime_pow Nat.prime_two).mp (show c' ∣ 2 ^ b from power.symm ▸ divides)
    have large : 2 ^ 1 ≤ 2 ^ j := by omega
    exact made.bootstraps rebased found (Nat.pow_dvd_pow 2 ((Nat.pow_le_pow_iff_right one_lt_two).mp large)) (Nat.two_pow_pos j)
      divides multiple inside
  · intro ct reduced above divides
    have above : p.q < ct.modulus := above
    have le := Nat.le_of_dvd (show 0 < mod from powerMod.symm ▸ Nat.two_pow_pos c) divides
    have room : 4 * beta ≤ p.q := Nat.le_of_dvd (NeZero.pos p.q) quarters
    exact made.switched ((exactNext_lt (show 2 * beta < p.q by omega) (by omega)).le.trans le) reduced

end MakesKeyMap

/-! ### From encryption to decryption -/

section Whole
variable {w : NativeSize} {plat : Platform} {qKS baseKS : ℕ} {sk : LWEPrivateKey n}
  {draws : (base : ℕ) → KeyGenDraws (p.withBase plat base) n} {gBits : ℕ → ℕ} {S E : ℝ} {E' : ℚ} {beta mod a b c : ℕ}

/-- The sizes of a context for large messages. -/
structure LargePrecision (w : NativeSize) (p : RingGSWCryptoParams) (beta mod : ℕ) : Prop where
  powerBeta : ∃ a, beta = 2 ^ a
  powerMod : ∃ c, mod = 2 ^ c
  room : 8 * beta ≤ p.q
  more : p.q < mod
  word : 2 * mod * beta < 2 ^ w.bits
  fits : ¬ modulusTooLarge w mod

namespace LargePrecision
variable (sizes : LargePrecision w p beta mod)
include sizes

omit [NeZero p.N] [NeZero p.q] in
theorem block : ∃ t, mod = t * (2 * beta) ∧ 4 ≤ t := by
  obtain ⟨a, ha⟩ := sizes.powerBeta
  obtain ⟨c, hc⟩ := sizes.powerMod
  have room := sizes.room
  have more := sizes.more
  have le : a + 3 ≤ c := by
    apply (Nat.pow_le_pow_iff_right one_lt_two).mp
    rw [pow_add, ← ha, ← hc]
    omega
  obtain ⟨d, rfl⟩ := Nat.exists_eq_add_of_le le
  refine ⟨2 ^ (2 + d), ?_, ?_⟩
  · rw [hc, ha]
    ring
  · rw [pow_add]
    exact Nat.le_mul_of_pos_right _ (Nat.two_pow_pos d)

omit [NeZero p.N] [NeZero p.q] in
theorem mod_dvd_word : mod ∣ 2 ^ w.bits := by
  obtain ⟨c, hc⟩ := sizes.powerMod
  have word := lt_of_not_tooLarge sizes.fits
  have le : mod ≤ 2 ^ w.bits := by omega
  rw [hc] at le ⊢
  exact Nat.pow_dvd_pow 2 ((Nat.pow_le_pow_iff_right one_lt_two).mp le)

omit [NeZero p.N] [NeZero p.q] in
theorem pos_beta : 0 < beta := by
  obtain ⟨a, ha⟩ := sizes.powerBeta
  exact ha ▸ Nat.two_pow_pos a

end LargePrecision

theorem MakesKeyMap.exists_powerQ (made : MakesKeyMap w plat p qKS baseKS sk draws gBits S E E' beta mod) : ∃ b, p.q = 2 ^ b := by
  have admissible := (made.makes p.baseG made.listed).admissible
  obtain ⟨k, hk⟩ := admissible.power
  have divides : p.q ∣ 2 ^ (k + 1) := by
    rw [pow_succ', ← hk]
    exact admissible.divides
  obtain ⟨b, -, hb⟩ := (Nat.dvd_prime_pow Nat.prime_two).mp divides
  exact ⟨b, hb⟩

/-- The rounds of a context for large messages. -/
theorem MakesKeyMap.exists_rounds (sizes : LargePrecision w p beta mod)
    (made : MakesKeyMap w plat p qKS baseKS sk draws gBits S E E' beta mod) :
    IdealRounds (P := SingleKeyParams.ofRing p n qKS baseKS) w plat doubleRound (btKeyGen w plat qKS baseKS sk draws) p.toGadget
        sk.signed beta mod ∧
      ∃ h k, Splits w (SingleKeyParams.ofRing p n qKS baseKS) beta mod (p.q / (2 * beta)) h k := by
  obtain ⟨a, ha⟩ := sizes.powerBeta
  obtain ⟨b, hb⟩ := made.exists_powerQ
  obtain ⟨c, hc⟩ := sizes.powerMod
  have room := sizes.room
  have more := sizes.more
  have word := lt_of_not_tooLarge sizes.fits
  have quarters : 4 * beta ∣ p.q := by
    have le : a + 2 ≤ b := by
      apply (Nat.pow_le_pow_iff_right one_lt_two).mp
      rw [pow_add, ← ha, ← hb]
      omega
    rw [ha, hb, mul_comm, show 2 ^ a * 4 = 2 ^ (a + 2) by ring]
    exact Nat.pow_dvd_pow 2 le
  have fits : ¬ modulusTooLarge w p.q := fun large => sizes.fits (large.trans_le (Nat.size_le_size more.le))
  exact ⟨made.idealRounds hb hc sizes.pos_beta quarters more.le (by omega) fits, exists_splits ha hb hc room more sizes.word⟩

/-- A message modulo `mod / (2 * beta)` and what `Encrypt` draws for it. -/
structure LargeDraw (n beta mod : ℕ) where
  m : ℕ
  e : ℕ
  a : Fin n → ℕ
  m_lt : 2 * beta * m < mod
  a_lt : ∀ i, a i < mod
  small : 4 * |centered mod e| < beta

omit [NeZero p.N] [NeZero p.q] in
theorem LargeDraw.encrypted (sizes : LargePrecision w p beta mod) (key : sk.Generated w) (x : LargeDraw n beta mod) :
    ∃ ct, LWE.encrypt w sk x.e x.a x.m (mod / (2 * beta)) mod = .ok ct ∧ LWE.Reduced ct ∧ ct.modulus = mod ∧
      LWE.phase sk.signed ct ≡ 2 * beta * x.m + centered mod x.e [ZMOD mod] := by
  obtain ⟨t, ht, four⟩ := sizes.block
  have pos := sizes.pos_beta
  have two : 2 ≤ mod := by
    rw [ht]
    nlinarith
  obtain ⟨ct, made, reduced, modulus, -, phase⟩ := LWE.encrypt_phase key two sizes.fits sizes.mod_dvd_word x.a_lt x.e x.m
    (mod / (2 * beta))
  refine ⟨ct, made, reduced, modulus, ?_⟩
  have space : mod / (2 * beta) = t := by rw [ht, Nat.mul_div_cancel _ (by omega)]
  have interval : mod / t = 2 * beta := by rw [ht, Nat.mul_div_cancel_left _ (by omega)]
  have below : x.m < t := Nat.lt_of_mul_lt_mul_left (x.m_lt.trans_eq (ht.trans (mul_comm _ _)))
  rw [space, interval, Nat.mod_eq_of_lt below] at phase
  push_cast at phase
  rwa [show (x.m : ℤ) * (2 * beta) = 2 * beta * x.m by ring] at phase

/-- Encrypted and given to `EvalSign` with generated keys, a message decrypts to its highest bit. -/
theorem generated_sign_decrypts (sizes : LargePrecision w p beta mod)
    (made : MakesKeyMap w plat p qKS baseKS sk draws gBits S E E' beta mod) (x : LargeDraw n beta mod) :
    ∃ ct k, LWE.encrypt w sk x.e x.a x.m (mod / (2 * beta)) mod = .ok ct ∧
      EndsAfter (fun fuel => evalSign (P := SingleKeyParams.ofRing p n qKS baseKS) w plat doubleRound fuel
        (btKeyGen w plat qKS baseKS sk draws) ct beta false p.toGadget) k ∧
      ∀ fuel, k < fuel → ∃ out g, evalSign (P := SingleKeyParams.ofRing p n qKS baseKS) w plat doubleRound fuel
          (btKeyGen w plat qKS baseKS sk draws) ct beta false p.toGadget = some (.ok out, g) ∧
        LWE.decrypt w sk out 2 = .ok (if mod / 2 ≤ 2 * beta * x.m then 1 else 0) := by
  obtain ⟨ideal, h, k, splits⟩ := made.exists_rounds sizes
  obtain ⟨b, hb⟩ := made.exists_powerQ
  obtain ⟨ct, encrypted, reduced, modulus, held⟩ := x.encrypted sizes made.key
  have below := x.m_lt
  have top := splits.top_bit below
  have small := x.small
  subst modulus
  obtain ⟨short, enough⟩ := evalSign_bit splits ideal made.key reduced small held below splits.quarters (splits.q_dvd_word hb)
  refine ⟨ct, k + 1, encrypted, endsAfter_of_some short fun fuel above => ?_, fun fuel above => ?_⟩
  · obtain ⟨-, out, g, noise, run, -⟩ := enough fuel above
    exact ⟨_, run⟩
  · obtain ⟨-, out, g, noise, run, decrypted, -⟩ := enough fuel above
    exact ⟨out, g, run, top ▸ decrypted⟩

/-- Digits with moduli that hold them decrypt. -/
theorem digits_decrypt {R : ℕ} (hR : 0 < R) {last : LWECiphertext n} {top : ℕ}
    (opens : ∀ c M d, (M = R ∨ M = top) → Holds sk.signed beta c.modulus d c → c.modulus = 2 * beta * M → d < M →
      LWE.decrypt w sk c (c.modulus / (2 * beta)) = .ok d) (lastModulus : last.modulus = 2 * beta * top) {k m : ℕ}
    (below : m / R ^ k < top) {stored : List (LWECiphertext n)} (moduli : ∀ c ∈ stored, c.modulus = 2 * beta * R)
    (held : List.Forall₂ (fun c d => Holds sk.signed beta c.modulus d c) (stored ++ [last]) (lowDigits R k m)) :
    ((stored ++ [last]).mapM fun c => LWE.decrypt w sk c (c.modulus / (2 * beta))) = .ok (lowDigits R k m) := by
  induction k generalizing m stored with
  | zero =>
    cases stored with
    | nil =>
      obtain ⟨here, -⟩ := List.forall₂_cons.mp held
      rw [pow_zero, Nat.div_one] at below
      rw [List.nil_append, List.mapM_cons, opens last top m (.inr rfl) here lastModulus below]
      rfl
    | cons c rest =>
      have long := held.length_eq
      simp [lowDigits] at long
  | succ k ih =>
    cases stored with
    | nil =>
      have short := held.length_eq
      simp [lowDigits] at short
    | cons c rest =>
      obtain ⟨here, later⟩ := List.forall₂_cons.mp held
      rw [pow_succ', ← Nat.div_div_eq_div_mul] at below
      rw [List.cons_append, List.mapM_cons, opens c R (m % R) (.inl rfl) here (moduli c (List.mem_cons_self ..)) (Nat.mod_lt _ hR),
        ih below (fun c' member => moduli c' (List.mem_cons_of_mem _ member)) later]
      rfl

/-- Encrypted, given to `EvalDecomp` with generated keys and decrypted digit by digit, a message comes back. -/
theorem generated_digits_recompose (sizes : LargePrecision w p beta mod) (narrow : p.q / (2 * beta) * p.q < 2 ^ w.bits)
    (made : MakesKeyMap w plat p qKS baseKS sk draws gBits S E E' beta mod) (x : LargeDraw n beta mod) :
    ∃ ct k, LWE.encrypt w sk x.e x.a x.m (mod / (2 * beta)) mod = .ok ct ∧
      EndsAfter (fun fuel => evalDecomp (P := SingleKeyParams.ofRing p n qKS baseKS) w plat doubleRound fuel
        (btKeyGen w plat qKS baseKS sk draws) ct beta p.toGadget) k ∧
      ∀ fuel, k < fuel → ∃ cts digits g, evalDecomp (P := SingleKeyParams.ofRing p n qKS baseKS) w plat doubleRound fuel
          (btKeyGen w plat qKS baseKS sk draws) ct beta p.toGadget = some (.ok cts, g) ∧
        (cts.mapM fun c => LWE.decrypt w sk c (c.modulus / (2 * beta))) = .ok digits ∧
        Nat.ofDigits (p.q / (2 * beta)) digits = x.m := by
  obtain ⟨ideal, h, k, splits⟩ := made.exists_rounds sizes
  obtain ⟨b, hb⟩ := made.exists_powerQ
  obtain ⟨ct, encrypted, reduced, modulus, held⟩ := x.encrypted sizes made.key
  have below := x.m_lt
  have small := x.small
  have four := splits.four
  have pos := sizes.pos_beta
  have wordQ : p.q ∣ 2 ^ w.bits := splits.q_dvd_word hb
  have fitsQ : ¬ modulusTooLarge w p.q := fun large => sizes.fits (large.trans_le (Nat.size_le_size sizes.more.le))
  have size : p.q = 2 * beta * (p.q / (2 * beta)) := splits.q_eq
  have last_lt : x.m / (p.q / (2 * beta)) ^ (k + 1) < 2 * h := by
    apply Nat.div_lt_of_lt_mul
    have := splits.mod_eq
    exact Nat.lt_of_mul_lt_mul_left (below.trans_eq this)
  have opens : ∀ (c : LWECiphertext n) (M d : ℕ), (M = p.q / (2 * beta) ∨ M = 2 * h) → Holds sk.signed beta c.modulus d c →
      c.modulus = 2 * beta * M → d < M → LWE.decrypt w sk c (c.modulus / (2 * beta)) = .ok d := by
    rintro c M d either ⟨reducedC, -, e, he, phase⟩ modulusC digit
    have factor : M ∣ p.q / (2 * beta) := by
      rcases either with rfl | rfl
      · exact dvd_rfl
      · exact splits.even
    have divides : c.modulus ∣ p.q := by
      rw [modulusC]
      conv_rhs => rw [size]
      exact Nat.mul_dvd_mul_left _ factor
    have le := Nat.le_of_dvd (NeZero.pos p.q) divides
    have space : c.modulus / (2 * beta) = M := by rw [modulusC, Nat.mul_div_cancel_left _ (by omega)]
    rw [space]
    refine LWE.decrypt_block made.key reducedC (fun large => fitsQ (large.trans_le (Nat.size_le_size le))) (divides.trans wordQ)
      (modulusC.trans (mul_comm _ _)) ?_ digit (e := e) (by have := abs_nonneg e; omega) ?_
    · exact (Nat.mul_le_mul (Nat.le_of_dvd (by omega) factor) le).trans_lt narrow
    · rwa [show ((d * (2 * beta) : ℕ) : ℤ) = 2 * beta * d by push_cast; ring]
  subst modulus
  obtain ⟨stored, last, g, short, enough, digits, moduli, lastModulus⟩ := evalDecomp_stored splits ideal reduced small held
  refine ⟨ct, k + 1, encrypted, endsAfter_of_some short fun fuel above => ⟨_, enough fuel above⟩, fun fuel above => ?_⟩
  exact ⟨_, _, g, enough fuel above, digits_decrypt (by omega) opens lastModulus last_lt (fun c member => (moduli c member).trans size)
    digits, ofDigits_lowDigits⟩

end Whole

end Keys

/-! ### Messages modulo 64 -/

/-- The three bases write numbers below `2 ^ 54` with four, three and two digits. -/
def largePlatform : Platform :=
  { Platform.threeDigits with
    digitCount := fun _ base => if base = 2 ^ 14 then 4 else if base = 2 ^ 27 then 2 else 3
    signDigits := fun _ _ => 38 }

/-- A modulus of 54 bits, as in the contexts for large precision. -/
def largeRing : RingGSWCryptoParams :=
  { RingGSWCryptoParams.default with
    toGadget := Gadget.preCompute largePlatform true ⟨18014398509481729, 2 ^ 18, 3, [], []⟩
    N := 64, q := 128, baseR := 32, method := .GINX }

instance : NeZero largeRing.N := ⟨by decide⟩
instance : NeZero largeRing.Q := ⟨by decide⟩
instance : NeZero largeRing.q := ⟨by decide⟩

def largeKey : LWEPrivateKey 1 := ⟨fun _ => 1, 2 ^ 27⟩

def largeDraws (base : ℕ) : KeyGenDraws (largeRing.withBase largePlatform base) 1 where
  skN := ⟨fun _ => 1, 18014398509481729⟩
  masksKS := fun i digit j _ => (i + digit * 512 + j) % 2 ^ 27
  errorsKS := fun _ _ _ => 1
  dm := fun _ _ _ => ⟨fun _ _ => 1, fun l => xpow l⟩
  cggi := fun _ _ => ⟨fun _ _ => 1, fun l => xpow l⟩
  lmkcdey := fun _ => ⟨fun _ _ => 1, fun l => xpow l⟩
  auto := fun _ => ⟨fun _ => 1, fun l => xpow l⟩

theorem largeRing_covers {base : ℕ} (listed : base ∈ baseGlist) : Covers (largeRing.withBase largePlatform base) base.log2 := by
  have cases : base = 2 ^ 14 ∨ base = 2 ^ 18 ∨ base = 2 ^ 27 := by simpa [baseGlist] using listed
  rcases cases with rfl | rfl | rfl
  · exact ⟨by decide, by decide, by decide, by decide, by decide, by decide, by decide⟩
  · exact ⟨by decide, by decide, by decide, by decide, by decide, by decide, by decide⟩
  · exact ⟨by decide, by decide, by decide, by decide, by decide, by decide, by decide⟩

theorem largeRing_admissible (base : ℕ) : Admissible .w64 (largeRing.withBase largePlatform base) where
  power := ⟨6, rfl⟩
  narrow := show 2 * 64 < 2 ^ 32 by decide
  divides := show 128 ∣ 2 * 64 by decide
  large := show 2 < largeRing.Q by decide
  fits := show ¬ modulusTooLarge .w64 largeRing.Q by decide
  baseR := show 2 ≤ 32 by decide

theorem largeDraws_signed (base : ℕ) (i : Fin (largeRing.withBase largePlatform base).N) : (largeDraws base).skN.signed i = 1 :=
  show centered largeRing.Q 1 = 1 by decide

theorem largeDraws_makesKeys {base : ℕ} (listed : base ∈ baseGlist) :
    MakesKeys .w64 largePlatform (largeRing.withBase largePlatform base) (2 ^ 27) 512 largeKey (largeDraws base) base.log2 1 1 1 where
  admissible := largeRing_admissible base
  covers := largeRing_covers listed
  digits := show 128 ≤ 32 ^ 3 by decide
  switches :=
    { two_le := by decide
      room := by decide
      other := by decide
      fits := .inr (.inl (by decide))
      cover := by decide
      key := ⟨fun _ => show 1 < 2 ^ 27 by decide, by decide⟩
      ring := ⟨fun _ => show 1 < largeRing.Q by decide, show ¬ modulusTooLarge .w64 largeRing.Q by decide⟩
      masks_lt := fun i digit j _ => Nat.mod_lt _ (show 0 < 2 ^ 27 by decide) }
  modulus := rfl
  reads := ⟨by decide, fun _ => .inr (.inl rfl)⟩
  secret_le := fun i => by rw [largeDraws_signed]; simp
  dm_le := fun _ _ _ l => bounded_xpow l
  cggi_le := fun _ _ l => bounded_xpow l
  errors_le := fun _ _ _ => by
    rw [show centered (2 ^ 27) ((largeDraws base).errorsKS _ _ _) = 1 from (show centered (2 ^ 27) 1 = 1 by decide)]
    simp

theorem largeRing_rotationBound {base : ℕ} (listed : base ∈ baseGlist) :
    rotationBound largePlatform (largeRing.withBase largePlatform base) 1 base.log2 1 1 ≤ 2 ^ 36 := by
  have size : (largeRing.withBase largePlatform base).N = 64 := rfl
  have rotation : rotationBound largePlatform (largeRing.withBase largePlatform base) 1 base.log2 1 1 =
      4 * productBound (largeRing.withBase largePlatform base) base.log2 1 1 := by
    simp [rotationBound, RingGSWCryptoParams.withBase, largeRing]
  have whole : ∀ base ∈ baseGlist, lossBound (largeRing.withBase largePlatform base) base.log2 * (1 + 64) +
      digitsG2 (largeRing.withBase largePlatform base) * (64 * 2 ^ (base.log2 - 1)) ≤ 2 ^ 34 := by decide
  have real : (_ : ℝ) ≤ _ := Nat.cast_le.mpr (whole base listed)
  rw [rotation, productBound, size]
  push_cast at real ⊢
  linarith

theorem largeDraws_lookUpBound {base : ℕ} (listed : base ∈ baseGlist) {M : ℕ} (multiple : 128 ∣ M) (divides : M ∣ 1024) :
    lookUpBound largePlatform (largeRing.withBase largePlatform base) (2 ^ 27) 512 largeKey (largeDraws base) base.log2 1 1 1 M <
      (8 : ℕ) / 4 := by
  have ring : (1 + ∑ i, |(largeDraws base).skN.signed i| : ℤ) = 65 := by
    rw [Finset.sum_congr rfl fun i _ => by rw [largeDraws_signed]]
    rfl
  have key : (1 + ∑ i, |largeKey.signed i| : ℤ) = 2 := rfl
  have digits : largePlatform.digitCount (2 ^ 27) 512 = 3 := rfl
  have Q : (largeRing.withBase largePlatform base).Q = 18014398509481729 := rfl
  have size : (largeRing.withBase largePlatform base).N = 64 := rfl
  have rotation := largeRing_rotationBound listed
  obtain ⟨k, rfl⟩ := multiple
  have inside : k ∣ 8 := Nat.dvd_of_mul_dvd_mul_left (show 0 < 128 by norm_num) divides
  have le := Nat.le_of_dvd (by norm_num) inside
  rw [lookUpBound, LWE.switchBound, ring, key, digits, Q, size]
  have scaled : rotationBound largePlatform (largeRing.withBase largePlatform base) 1 base.log2 1 1 * ((128 * k : ℕ) : ℝ) /
      ((18014398509481729 : ℕ) : ℝ) ≤ 2 ^ 36 * ((128 * k : ℕ) : ℝ) / ((18014398509481729 : ℕ) : ℝ) := by gcongr
  refine lt_of_le_of_lt (add_le_add_left (add_le_add_right scaled _) _) ?_
  interval_cases k <;> first | omega | norm_num

theorem largeDraws_makesKeyMap :
    MakesKeyMap .w64 largePlatform largeRing (2 ^ 27) 512 largeKey largeDraws Nat.log2 1 1 1 8 1024 where
  built := ⟨by decide, rfl⟩
  listed := by decide
  ginx := rfl
  nonneg := zero_le_one
  makes := fun _ listed => largeDraws_makesKeys listed
  margin := fun _ listed _ multiple divides => largeDraws_lookUpBound listed multiple divides
  switch := by
    rw [show (1 + ∑ i, |largeKey.signed i| : ℤ) = 2 from rfl]
    norm_num

theorem largeRing_largePrecision : LargePrecision .w64 largeRing 8 1024 :=
  ⟨⟨3, rfl⟩, ⟨10, rfl⟩, by decide, by decide, by decide, by decide⟩

def largeDraw : LargeDraw 1 8 1024 := ⟨41, 1023, fun _ => 777, by decide, by decide, by decide⟩

/-- The highest bit of 41. -/
theorem largeRing_sign_decrypts :
    ∃ ct k, LWE.encrypt .w64 largeKey 1023 (fun _ => 777) 41 64 1024 = .ok ct ∧
      EndsAfter (fun fuel => evalSign (P := SingleKeyParams.ofRing largeRing 1 (2 ^ 27) 512) .w64 largePlatform doubleRound fuel
        (btKeyGen .w64 largePlatform (2 ^ 27) 512 largeKey largeDraws) ct 8 false largeRing.toGadget) k ∧
      ∀ fuel, k < fuel → ∃ out g, evalSign (P := SingleKeyParams.ofRing largeRing 1 (2 ^ 27) 512) .w64 largePlatform doubleRound
          fuel (btKeyGen .w64 largePlatform (2 ^ 27) 512 largeKey largeDraws) ct 8 false largeRing.toGadget = some (.ok out, g) ∧
        LWE.decrypt .w64 largeKey out 2 = .ok 1 :=
  generated_sign_decrypts largeRing_largePrecision largeDraws_makesKeyMap largeDraw

/-- The digits of 41. -/
theorem largeRing_digits_recompose :
    ∃ ct k, LWE.encrypt .w64 largeKey 1023 (fun _ => 777) 41 64 1024 = .ok ct ∧
      EndsAfter (fun fuel => evalDecomp (P := SingleKeyParams.ofRing largeRing 1 (2 ^ 27) 512) .w64 largePlatform doubleRound fuel
        (btKeyGen .w64 largePlatform (2 ^ 27) 512 largeKey largeDraws) ct 8 largeRing.toGadget) k ∧
      ∀ fuel, k < fuel → ∃ cts digits g, evalDecomp (P := SingleKeyParams.ofRing largeRing 1 (2 ^ 27) 512) .w64 largePlatform
          doubleRound fuel (btKeyGen .w64 largePlatform (2 ^ 27) 512 largeKey largeDraws) ct 8 largeRing.toGadget =
            some (.ok cts, g) ∧
        (cts.mapM fun c => LWE.decrypt .w64 largeKey c (c.modulus / (2 * 8))) = .ok digits ∧
        Nat.ofDigits 8 digits = 41 :=
  generated_digits_recompose largeRing_largePrecision (by decide) largeDraws_makesKeyMap largeDraw

end LWEGate
end MultiKeyFHE
