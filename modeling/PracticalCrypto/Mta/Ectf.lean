import Mathlib.AlgebraicGeometry.EllipticCurve.Affine.Point
import Mathlib.NumberTheory.LucasLehmer
import Mathlib.Tactic.LinearCombination
import PracticalCrypto.Mta.Zq

/-!
# From shares of a point to shares of a coordinate

This file embeds `ECtF::ectf` of `surf-impl/src/mta/ectf.cpp` for both parties. The
prover and the verifier each hold a point of a curve over a prime field and get shares
of the first coordinate of the sum of the points. They share an inversion of the
difference of the first coordinates under a blind, then the slope, and then its square.

The verifier is the sender of every multiplication and the prover the receiver. The
multiplications are a parameter of the run; `MtaShares` is what the run needs of them.
In an honest run the two values that the parties exchange arrive as they were sent.
-/

namespace PracticalCrypto.Ectf

open Mta

/-- What `EC_GROUP_get_curve_GFp` knows about a group: a curve `y² = x³ + a x + b` over a
prime field. -/
structure PrimeCurve where
  p : ℕ
  prime : p.Prime
  a : ZMod p
  b : ZMod p

namespace PrimeCurve

variable (curve : PrimeCurve)

instance : Fact curve.p.Prime := ⟨curve.prime⟩

def weierstrass : WeierstrassCurve.Affine (ZMod curve.p) where
  a₁ := 0
  a₂ := 0
  a₃ := 0
  a₄ := curve.a
  a₆ := curve.b

end PrimeCurve

/-- A point of the curve and the strings that a party stores its coordinates in. -/
structure CurvePoint (curve : PrimeCurve) where
  x : ZMod curve.p
  y : ZMod curve.p
  onCurve : curve.weierstrass.Nonsingular x y
  xSecret : Bytes
  ySecret : Bytes
  xSecret_ne_nil : xSecret ≠ []
  ySecret_ne_nil : ySecret ≠ []
  reads_x : bin2bn xSecret = x.val
  reads_y : bin2bn ySecret = y.val

/-- The multiplications of a run. -/
inductive MtaCall where
  | deltaFirst
  | deltaSecond
  | lambdaFirst
  | lambdaSecond
  | gamma
deriving DecidableEq, Repr

/-- The inputs of the sender and of the receiver, to their outputs. -/
abbrev MtaCalls : Type := MtaCall → ℕ → ℕ → Option (ℕ × ℕ)

/-- Every call returns shares of the product of its inputs modulo `p`. -/
def MtaShares (p : ℕ) (mta : MtaCalls) : Prop :=
  ∀ call a b, ∃ ofSender ofReceiver, mta call a b = some (ofSender, ofReceiver) ∧
    ofSender + ofReceiver ≡ a * b [MOD p]

/-- A value of each party. -/
structure Both where
  prover : ℕ
  verifier : ℕ

section Model

variable (mta : MtaCalls) (p : ℕ)

/-- `BN_mod_inverse`, which fails without an inverse. -/
def bnModInverse (a m : ℕ) : Option ℕ :=
  if a.Coprime m then some ((a : ZMod m)⁻¹).val else none

/-- `vector_mta_2`. -/
def vectorMta2 (calls : MtaCall × MtaCall) (first second : Both) : Option Both := do
  let a1 ← mta calls.1 first.verifier first.prover
  let a2 ← mta calls.2 second.verifier second.prover
  pure { prover := bnModAdd a1.2 a2.2 p, verifier := bnModAdd a1.1 a2.1 p }

/-- `scale_plus_share_impl`: the parties supply the value and the blind in different orders. -/
def scalePlusShare (calls : MtaCall × MtaCall) (val blind : Both) : Option Both := do
  let first : Both := { prover := blind.prover, verifier := val.verifier }
  let second : Both := { prover := val.prover, verifier := blind.verifier }
  let share ← vectorMta2 mta p calls first second
  pure
    { prover := bnModAdd share.prover (bnModMul val.prover blind.prover p) p
      verifier := bnModAdd share.verifier (bnModMul val.verifier blind.verifier p) p }

/-- What a party does with its own `delta` and the one that it reads. -/
def invertSum (own : ℕ) (read : Bytes) : Option ℕ :=
  bnModInverse (bnModAdd own (bin2bn read) p) p

/-- `share_inversion_impl`, with the messages between the parties. -/
def shareInversion (x rho : Both) : Option Both := do
  let delta ← scalePlusShare mta p (.deltaFirst, .deltaSecond) x rho
  let fromProver ← bn2binPadded (numBytes p) delta.prover
  let fromVerifier ← bn2binPadded (numBytes p) delta.verifier
  let ofProver ← invertSum p delta.prover fromVerifier
  let ofVerifier ← invertSum p delta.verifier fromProver
  pure { prover := ofProver, verifier := ofVerifier }

/-- `compute_lambda_impl`. -/
def computeLambda (y eta : Both) : Option Both :=
  scalePlusShare mta p (.lambdaFirst, .lambdaSecond) y eta

/-- `compute_gamma_internal`. -/
def computeGamma (lambda : Both) : Option Both := do
  let gamma ← mta .gamma lambda.verifier lambda.prover
  pure { prover := gamma.2, verifier := gamma.1 }

/-- `negate_if_verifier`; both temporaries are zero at its calls. -/
def negateIfVerifier (verifier : Bool) (input : ℕ) : ℕ :=
  if verifier then bnModSub 0 input p else input

/-- The last lines of `ectf_internal`: twice `gamma`, plus the square of `lambda`, minus `x`. -/
def finalValue (gamma lambda x : ℕ) : ℕ :=
  bnModSub (bnModAdd (bnModAdd gamma gamma p) (bnModMul lambda lambda p) p) x p

/-- `ectf_internal` of both parties. -/
def ectfInternal (x y rho : Both) : Option Both := do
  let xInput : Both :=
    { prover := negateIfVerifier p false x.prover, verifier := negateIfVerifier p true x.verifier }
  let delta ← shareInversion mta p xInput rho
  let yInput : Both :=
    { prover := negateIfVerifier p false y.prover, verifier := negateIfVerifier p true y.verifier }
  let eta : Both :=
    { prover := bnModMul rho.prover delta.prover p
      verifier := bnModMul rho.verifier delta.verifier p }
  let lambda ← computeLambda mta p yInput eta
  let gamma ← computeGamma mta lambda
  pure
    { prover := finalValue p gamma.prover lambda.prover x.prover
      verifier := finalValue p gamma.verifier lambda.verifier x.verifier }

/-- `ectf` of both parties: the shares as padded strings. -/
def ectf (xProver yProver xVerifier yVerifier : Bytes) (rho : Both) : Option (Bytes × Bytes) := do
  if xProver = [] ∨ yProver = [] ∨ xVerifier = [] ∨ yVerifier = [] then none
  else
    let x : Both := { prover := bin2bn xProver, verifier := bin2bn xVerifier }
    let y : Both := { prover := bin2bn yProver, verifier := bin2bn yVerifier }
    let out ← ectfInternal mta p x y rho
    let ofProver ← bn2binPadded (numBytes p) out.prover
    let ofVerifier ← bn2binPadded (numBytes p) out.verifier
    pure (ofProver, ofVerifier)

end Model

section Shares

variable {mta : MtaCalls} {p : ℕ}

/-- What a shared value stands for. -/
def Both.total (p : ℕ) (value : Both) : ZMod p := value.prover + value.verifier

structure Both.Reduced (p : ℕ) (value : Both) : Prop where
  prover : value.prover < p
  verifier : value.verifier < p

theorem MtaShares.natCast (shares : MtaShares p mta) (call : MtaCall) (a b : ℕ) :
    ∃ ofSender ofReceiver, mta call a b = some (ofSender, ofReceiver) ∧
      (ofSender + ofReceiver : ZMod p) = a * b := by
  rcases shares call a b with ⟨ofSender, ofReceiver, returned, product⟩
  refine ⟨ofSender, ofReceiver, returned, ?_⟩
  rw [← ZMod.natCast_eq_natCast_iff] at product
  exact_mod_cast product

@[simp]
theorem natCast_bnModMul (a b : ℕ) : ((bnModMul a b p : ℕ) : ZMod p) = a * b := by
  simp [bnModMul]

theorem sent_of_lt {number : ℕ} (reduced : number < p) :
    ∃ bytes, bn2binPadded (numBytes p) number = some bytes ∧ bin2bn bytes = number := by
  have fits := reduced.trans_le (le_pow_numBytes p)
  refine ⟨_, if_pos fits, ?_⟩
  rw [bin2bn, BigEndian.toNat_ofNat, Nat.mod_eq_of_lt fits]

variable [Fact p.Prime]

/-- The products of own values and the shares of the mixed products give the whole product. -/
theorem scalePlusShare_spec (shares : MtaShares p mta) (calls : MtaCall × MtaCall)
    (val blind : Both) :
    ∃ out, scalePlusShare mta p calls val blind = some out ∧
      out.total p = val.total p * blind.total p ∧ out.Reduced p := by
  rcases shares.natCast calls.1 val.verifier blind.prover with
    ⟨firstSender, firstReceiver, first, firstProduct⟩
  rcases shares.natCast calls.2 blind.verifier val.prover with
    ⟨secondSender, secondReceiver, second, secondProduct⟩
  let out : Both :=
    { prover := bnModAdd (bnModAdd firstReceiver secondReceiver p)
        (bnModMul val.prover blind.prover p) p
      verifier := bnModAdd (bnModAdd firstSender secondSender p)
        (bnModMul val.verifier blind.verifier p) p }
  refine ⟨out, ?_, ?_, bnModAdd_lt _ _ _, bnModAdd_lt _ _ _⟩
  · simp only [scalePlusShare, vectorMta2, first, second, Option.bind_eq_bind, Option.bind_some]
    rfl
  · simp only [Both.total, out, natCast_bnModAdd, natCast_bnModMul]
    linear_combination firstProduct + secondProduct

theorem bnModInverse_of_zero {number : ℕ} (zero : (number : ZMod p) = 0) :
    bnModInverse number p = none := by
  rw [bnModInverse, if_neg]
  rw [Nat.coprime_comm, (Fact.out : p.Prime).coprime_iff_not_dvd, not_not]
  exact (ZMod.natCast_eq_zero_iff number p).mp zero

theorem bnModInverse_of_ne_zero {number : ℕ} (nonzero : (number : ZMod p) ≠ 0) :
    bnModInverse number p = some ((number : ZMod p)⁻¹).val := by
  rw [bnModInverse, if_pos]
  rw [Nat.coprime_comm, (Fact.out : p.Prime).coprime_iff_not_dvd]
  intro divides
  exact nonzero ((ZMod.natCast_eq_zero_iff number p).mpr divides)

/-- Both parties invert the same value, and both fail if it is zero. -/
theorem shareInversion_spec (shares : MtaShares p mta) (x rho : Both) :
    (x.total p * rho.total p = 0 → shareInversion mta p x rho = none) ∧
      (x.total p * rho.total p ≠ 0 → ∃ out, shareInversion mta p x rho = some out ∧
        (out.prover : ZMod p) = (x.total p * rho.total p)⁻¹ ∧
        (out.verifier : ZMod p) = (x.total p * rho.total p)⁻¹) := by
  rcases scalePlusShare_spec shares (.deltaFirst, .deltaSecond) x rho with
    ⟨delta, returned, product, reduced⟩
  rcases sent_of_lt reduced.prover with ⟨fromProver, proverSent, proverRead⟩
  rcases sent_of_lt reduced.verifier with ⟨fromVerifier, verifierSent, verifierRead⟩
  have atProver : ((bnModAdd delta.prover delta.verifier p : ℕ) : ZMod p) =
      x.total p * rho.total p := by
    rw [natCast_bnModAdd, ← product, Both.total]
  have atVerifier : ((bnModAdd delta.verifier delta.prover p : ℕ) : ZMod p) =
      x.total p * rho.total p := by
    rw [natCast_bnModAdd, ← product, Both.total, add_comm]
  simp only [shareInversion, returned, proverSent, verifierSent, invertSum, proverRead,
    verifierRead, Option.bind_eq_bind, Option.bind_some]
  constructor
  · intro zero
    rw [bnModInverse_of_zero (atProver.trans zero), Option.bind_none]
  · intro nonzero
    rw [bnModInverse_of_ne_zero (atProver.trans_ne nonzero),
      bnModInverse_of_ne_zero (atVerifier.trans_ne nonzero)]
    refine ⟨_, rfl, ?_, ?_⟩
    · rw [ZMod.natCast_zmod_val, atProver]
    · rw [ZMod.natCast_zmod_val, atVerifier]

theorem computeGamma_spec (shares : MtaShares p mta) (lambda : Both) :
    ∃ out, computeGamma mta lambda = some out ∧
      out.total p = lambda.prover * lambda.verifier := by
  rcases shares.natCast .gamma lambda.verifier lambda.prover with
    ⟨ofSender, ofReceiver, returned, product⟩
  refine ⟨{ prover := ofReceiver, verifier := ofSender }, ?_, ?_⟩
  · simp only [computeGamma, returned, Option.bind_eq_bind, Option.bind_some]
    rfl
  · rw [Both.total]
    linear_combination product

/-- The signs of the parties turn the sum of their inputs into the difference. -/
theorem total_negated (value : Both) :
    Both.total p { prover := negateIfVerifier p false value.prover
                   verifier := negateIfVerifier p true value.verifier } =
      value.prover - value.verifier := by
  simp [Both.total, negateIfVerifier, sub_eq_add_neg]

/-- The run fails if the blinded difference is zero, and ends with shares of the first coordinate
given by the slope otherwise. -/
theorem ectfInternal_spec (shares : MtaShares p mta) (x y rho : Both) :
    let blinded : ZMod p := (x.prover - x.verifier) * (rho.prover + rho.verifier)
    (blinded = 0 → ectfInternal mta p x y rho = none) ∧
      (blinded ≠ 0 → ∃ out, ectfInternal mta p x y rho = some out ∧ out.Reduced p ∧
        out.total p = (((y.prover - y.verifier) / (x.prover - x.verifier)) ^ 2 -
          x.prover - x.verifier : ZMod p)) := by
  intro blinded
  have inversion := shareInversion_spec shares
    { prover := negateIfVerifier p false x.prover, verifier := negateIfVerifier p true x.verifier }
    rho
  rw [total_negated, Both.total] at inversion
  constructor
  · intro zero
    simp only [ectfInternal, inversion.1 zero, Option.bind_eq_bind, Option.bind_none]
  · intro nonzero
    rcases inversion.2 nonzero with ⟨delta, inverted, atProver, atVerifier⟩
    let eta : Both :=
      { prover := bnModMul rho.prover delta.prover p
        verifier := bnModMul rho.verifier delta.verifier p }
    rcases scalePlusShare_spec shares (.lambdaFirst, .lambdaSecond)
      { prover := negateIfVerifier p false y.prover, verifier := negateIfVerifier p true y.verifier }
      eta with ⟨lambda, scaled, slope, -⟩
    rcases computeGamma_spec shares lambda with ⟨gamma, multiplied, product⟩
    refine ⟨{ prover := finalValue p gamma.prover lambda.prover x.prover
              verifier := finalValue p gamma.verifier lambda.verifier x.verifier }, ?_, ?_, ?_⟩
    · simp only [ectfInternal, inverted, computeLambda, Option.bind_eq_bind, Option.bind_some]
      rw [scaled]
      simp only [Option.bind_some, multiplied]
      rfl
    · exact ⟨bnModSub_lt _ _ _, bnModSub_lt _ _ _⟩
    · -- The blind cancels in the slope, and the square needs the mixed product twice.
      have factors := mul_ne_zero_iff.mp nonzero
      have etaTotal : eta.total p = (x.prover - x.verifier : ZMod p)⁻¹ := by
        have rhoNonzero := factors.2
        simp only [Both.total, eta, natCast_bnModMul, atProver, atVerifier]
        field_simp
      rw [total_negated, etaTotal, ← div_eq_mul_inv] at slope
      rw [← slope]
      simp only [Both.total, finalValue, natCast_bnModSub, natCast_bnModAdd, natCast_bnModMul] at product ⊢
      linear_combination 2 * product

end Shares

variable {curve : PrimeCurve}

/-- The point as an element of the group of the curve. -/
def CurvePoint.point (point : CurvePoint curve) : curve.weierstrass.Point :=
  .some point.x point.y point.onCurve

/-- Both parties succeed if and only if the blinded difference of the first coordinates is not
zero, and then their outputs are shares of the first coordinate of the sum of the points. -/
theorem ectf_sum {mta : MtaCalls} (shares : MtaShares curve.p mta)
    (ofProver ofVerifier : CurvePoint curve) (rho : Both) :
    let run := ectf mta curve.p ofProver.xSecret ofProver.ySecret ofVerifier.xSecret
      ofVerifier.ySecret rho
    (run.isSome ↔
      (ofProver.x - ofVerifier.x) * ((rho.prover + rho.verifier : ℕ) : ZMod curve.p) ≠ 0) ∧
      ∀ outProver outVerifier, run = some (outProver, outVerifier) →
        ∃ y onCurve, ofProver.point + ofVerifier.point =
          .some ((bin2bn outProver + bin2bn outVerifier : ℕ) : ZMod curve.p) y onCurve := by
  intro run
  let x : Both := { prover := bin2bn ofProver.xSecret, verifier := bin2bn ofVerifier.xSecret }
  let y : Both := { prover := bin2bn ofProver.ySecret, verifier := bin2bn ofVerifier.ySecret }
  have unfolded : run = (ectfInternal mta curve.p x y rho).bind fun out =>
      (bn2binPadded (numBytes curve.p) out.prover).bind fun fromProver =>
        (bn2binPadded (numBytes curve.p) out.verifier).bind fun fromVerifier =>
          some (fromProver, fromVerifier) := by
    simp only [run, ectf, ofProver.xSecret_ne_nil, ofProver.ySecret_ne_nil,
      ofVerifier.xSecret_ne_nil, ofVerifier.ySecret_ne_nil, or_self, if_false]
    rfl
  have spec := ectfInternal_spec shares x y rho
  simp only [x, y, ofProver.reads_x, ofVerifier.reads_x, ofProver.reads_y, ofVerifier.reads_y,
    ZMod.natCast_zmod_val] at spec unfolded
  rw [Nat.cast_add, unfolded]
  by_cases zero : (ofProver.x - ofVerifier.x) * (rho.prover + rho.verifier : ZMod curve.p) = 0
  · rw [spec.1 zero]
    simp [zero]
  · rcases spec.2 zero with ⟨out, completed, reduced, total⟩
    rcases sent_of_lt reduced.prover with ⟨fromProver, proverPadded, proverRead⟩
    rcases sent_of_lt reduced.verifier with ⟨fromVerifier, verifierPadded, verifierRead⟩
    simp only [completed, proverPadded, verifierPadded, Option.bind_some]
    refine ⟨by simpa using zero, ?_⟩
    intro outProver outVerifier returned
    rcases Option.some.inj returned with ⟨rfl, rfl⟩
    have different : ofProver.x ≠ ofVerifier.x := sub_ne_zero.mp (mul_ne_zero_iff.mp zero).1
    have coordinate : curve.weierstrass.addX ofProver.x ofVerifier.x
        (curve.weierstrass.slope ofProver.x ofVerifier.x ofProver.y ofVerifier.y) =
          ((bin2bn fromProver + bin2bn fromVerifier : ℕ) : ZMod curve.p) := by
      rw [proverRead, verifierRead, Nat.cast_add, WeierstrassCurve.Affine.slope_of_X_ne different,
        WeierstrassCurve.Affine.addX]
      simp only [PrimeCurve.weierstrass]
      rw [Both.total] at total
      linear_combination -total
    rw [← coordinate]
    exact ⟨_, _, WeierstrassCurve.Affine.Point.add_of_X_ne different⟩

section Sample

@[irreducible]
def p521 : ℕ :=
  0x1ffffffffffffffffffffffffffffffffffffffffffffffffffffffffffffffffffffffffffffffffffffffffffffffffffffffffffffffffffffffffffffffffff

theorem p521_eq : p521 = mersenne 521 := by
  unfold p521 mersenne
  decide +kernel

theorem prime_p521 : p521.Prime := by
  rw [p521_eq]
  exact lucas_lehmer_sufficiency 521 (by norm_num) (by norm_num)

/-- The last coefficient of P-521. -/
def b521 : ℕ :=
  0x51953eb9618e1c9a1f929a21a0b68540eea2da725b99b315f3b8b489918ef109e156193951ec7e937b1652c0bd3bb1bf073573df883d2c34f1ef451fd46b503f00

/-- The curve P-521. -/
def secp521r1 : PrimeCurve where
  p := p521
  prime := prime_p521
  a := -3
  b := (b521 : ZMod p521)

/-- The coordinates of a point of P-521. -/
structure Coordinates where
  x : ℕ
  y : ℕ
  x_lt : x < p521
  y_lt : y < p521
  equation : y ^ 2 + 3 * x ≡ x ^ 3 + b521 [MOD p521]
  not_dvd : ¬p521 ∣ 2 * y

theorem Coordinates.nonsingular (point : Coordinates) :
    secp521r1.weierstrass.Nonsingular (point.x : ZMod secp521r1.p)
      (point.y : ZMod secp521r1.p) := by
  rw [WeierstrassCurve.Affine.nonsingular_iff, WeierstrassCurve.Affine.equation_iff]
  have equation := (ZMod.natCast_eq_natCast_iff _ _ secp521r1.p).mpr point.equation
  push_cast at equation
  have coefficient : secp521r1.a = -3 ∧ secp521r1.b = (b521 : ZMod secp521r1.p) := ⟨rfl, rfl⟩
  constructor
  · simp only [PrimeCurve.weierstrass, coefficient.1, coefficient.2]
    linear_combination equation
  · right
    intro same
    apply point.not_dvd
    change secp521r1.p ∣ 2 * point.y
    rw [← ZMod.natCast_eq_zero_iff, Nat.cast_mul]
    simp only [PrimeCurve.weierstrass] at same
    linear_combination same

theorem reads_ofNat {number : ℕ} (reduced : number < p521) :
    bin2bn (BigEndian.ofNat 66 number) = (number : ZMod secp521r1.p).val := by
  have fits : p521 ≤ 256 ^ 66 := by
    unfold p521
    decide +kernel
  rw [bin2bn, BigEndian.toNat_ofNat, Nat.mod_eq_of_lt (reduced.trans_le fits),
    ZMod.val_natCast_of_lt (show number < secp521r1.p from reduced)]

theorem ofNat_ne_nil (number : ℕ) : BigEndian.ofNat 66 number ≠ [] := by
  apply List.ne_nil_of_length_pos
  simp

/-- A point of P-521 as a party stores it. -/
def Coordinates.toPoint (point : Coordinates) : CurvePoint secp521r1 where
  x := (point.x : ZMod secp521r1.p)
  y := (point.y : ZMod secp521r1.p)
  onCurve := point.nonsingular
  xSecret := BigEndian.ofNat 66 point.x
  ySecret := BigEndian.ofNat 66 point.y
  xSecret_ne_nil := ofNat_ne_nil _
  ySecret_ne_nil := ofNat_ne_nil _
  reads_x := reads_ofNat point.x_lt
  reads_y := reads_ofNat point.y_lt

/-- The generator. -/
def generator : Coordinates where
  x :=
    0xc6858e06b70404e9cd9e3ecb662395b4429c648139053fb521f828af606b4d3dbaa14b5e77efe75928fe1dc127a2ffa8de3348b3c1856a429bf97e7e31c2e5bd66
  y :=
    0x11839296a789a3bc0045c8a5fb42c7d1bd998f54449579b446817afbd17273e662c97ee72995ef42640c550b9013fad0761353c7086a272c24088be94769fd16650
  x_lt := by
    unfold p521
    decide +kernel
  y_lt := by
    unfold p521
    decide +kernel
  equation := by
    unfold p521 b521
    decide +kernel
  not_dvd := by
    unfold p521
    decide +kernel

/-- Twice the generator. -/
def doubled : Coordinates where
  x :=
    0x433c219024277e7e682fcb288148c282747403279b1ccc06352c6e5505d769be97b3b204da6ef55507aa104a3a35c5af41cf2fa364d60fd967f43e3933ba6d783d
  y :=
    0xf4bb8cc7f86db26700a7f3eceeeed3f0b5c6b5107c4da97740ab21a29906c42dbbb3e377de9f251f6b93937fa99a3248f4eafcbe95edc0f4f71be356d661f41b02
  x_lt := by
    unfold p521
    decide +kernel
  y_lt := by
    unfold p521
    decide +kernel
  equation := by
    unfold p521 b521
    decide +kernel
  not_dvd := by
    unfold p521
    decide +kernel

/-- The MtA over the integers modulo `p`, with the random values of every call. -/
def zqMta (ot : BlockOt) {p : ℕ} (senders : MtaCall → SenderDraws p)
    (receivers : MtaCall → ReceiverDraws p) : MtaCalls := fun call a b =>
  playMta ot a b p (senders call) (receivers call)

theorem mtaShares_zqMta {ot : BlockOt} (correct : CorrectBlockOt ot) {p : ℕ} (positive : 0 < p)
    (short : messageLength p < 2 ^ 31) (senders : MtaCall → SenderDraws p)
    (receivers : MtaCall → ReceiverDraws p) : MtaShares p (zqMta ot senders receivers) := by
  intro call a b
  rcases Option.isSome_iff_exists.mp
    (isSome_playMta correct positive a b (senders call) (receivers call) short) with
    ⟨outputs, completed⟩
  refine ⟨outputs.1, outputs.2, completed, ?_⟩
  rw [← ZMod.natCast_eq_natCast_iff, Nat.cast_add, Nat.cast_mul]
  exact natCast_playMta correct positive completed

theorem lt_p521 {number : ℕ} (small : number < 2 ^ 100) : number < p521 := by
  apply small.trans
  unfold p521
  decide +kernel

def constantSender : SenderDraws p521 where
  delta := fun _ => 3
  delta_lt := fun _ => lt_p521 (by decide)

def constantReceiver : ReceiverDraws p521 where
  samples := fun _ => 7
  samples_lt := fun _ => lt_p521 (by decide)
  rands := fun i => i.val % 3
  pos := 9
  sigma := 11
  sigma_lt := lt_p521 (by decide)

theorem natCast_ne_natCast {a b : ℕ} (reducedA : a < p521) (reducedB : b < p521) (apart : a ≠ b) :
    (a : ZMod secp521r1.p) ≠ (b : ZMod secp521r1.p) := by
  intro same
  apply apart
  have residues := (ZMod.natCast_eq_natCast_iff' a b secp521r1.p).mp same
  rwa [Nat.mod_eq_of_lt (show a < secp521r1.p from reducedA),
    Nat.mod_eq_of_lt (show b < secp521r1.p from reducedB)] at residues

theorem blinded_ne_zero :
    (generator.toPoint.x - doubled.toPoint.x) * ((5 + 7 : ℕ) : ZMod secp521r1.p) ≠ 0 := by
  apply mul_ne_zero
  · exact sub_ne_zero.mpr (natCast_ne_natCast generator.x_lt doubled.x_lt (by decide +kernel))
  · rw [← Nat.cast_zero]
    exact natCast_ne_natCast (lt_p521 (by decide)) (lt_p521 (by decide)) (by decide)

/-- The sum of the generator and its double, from shares of the two points. -/
theorem ectf_sum_secp521r1 :
    ∃ outProver outVerifier,
      ectf (zqMta (fun zeros ones choices => Chunks.choose choices zeros ones)
          (fun _ => constantSender) fun _ => constantReceiver) p521
        generator.toPoint.xSecret generator.toPoint.ySecret doubled.toPoint.xSecret
        doubled.toPoint.ySecret { prover := 5, verifier := 7 } = some (outProver, outVerifier) ∧
      ∃ y onCurve, generator.toPoint.point + doubled.toPoint.point =
        .some ((bin2bn outProver + bin2bn outVerifier : ℕ) : ZMod secp521r1.p) y onCurve := by
  have bits : numBits p521 ≤ 2 ^ 16 := by
    have inside : numBits p521 ≤ 521 := Nat.size_le.mpr (by
      unfold p521
      decide +kernel)
    omega
  have shares : MtaShares secp521r1.p (zqMta (fun zeros ones choices =>
      Chunks.choose choices zeros ones) (fun _ => constantSender) fun _ => constantReceiver) :=
    mtaShares_zqMta (fun _ _ _ => rfl) prime_p521.pos (messageLength_lt bits) _ _
  have sum := ectf_sum shares generator.toPoint doubled.toPoint { prover := 5, verifier := 7 }
  rcases Option.isSome_iff_exists.mp (sum.1.mpr blinded_ne_zero) with ⟨outputs, completed⟩
  exact ⟨outputs.1, outputs.2, completed, sum.2 _ _ completed⟩

end Sample

end PracticalCrypto.Ectf
