import Blindplane.Crypto.Clamp
import Blindplane.Crypto.Suite
import Blindplane.Lib.Checked
import Blindplane.Crypto.Edwards.Vartime

/-! # Signing keys, strict verification and the prepared verifier

A signature is accepted when its `S` is reduced and the recomputed `[S]B - [k]A` encodes to
its `R`. Verification against a prepared key computes the same point from another table,
so the two agree error for error. What SHA-512 computes plays no part: any function of
the message in its place gives the same results.
-/

namespace Blindplane.Crypto

open Lib Lib.Checked Curve25519

/-- An Ed25519 signing key. -/
structure SigningKey where
  seed : Vector UInt8 32
  scalar : Scalar
  noncePrefix : Vector UInt8 32
  publicKey : Vector UInt8 32

/-- The first half of a signature. -/
def rBytes (signature : Vector UInt8 64) : Vector UInt8 32 := signature.take 32

/-- The second half of a signature. -/
def sBytes (signature : Vector UInt8 64) : Vector UInt8 32 := signature.drop 32

section Hashing

variable (sha512 : Bytes → Vector UInt8 64)

namespace SigningKey

/-- Derive a signing key from a 32-byte seed. -/
def fromSeed (seed : Vector UInt8 32) : SigningKey :=
  let expanded := sha512 seed.toList
  let scalar := Scalar.fromBytesModOrder (clamp (expanded.take 32))
  { seed, scalar, noncePrefix := expanded.drop 32, publicKey := (EdwardsPoint.mulBase scalar).compress }

/-- The 32-byte public verifying key. -/
def verifyingKey (key : SigningKey) : Vector UInt8 32 := key.publicKey

/-- Sign a message, producing a 64-byte signature. -/
def sign (key : SigningKey) (message : Bytes) : Vector UInt8 64 :=
  let r := Scalar.fromWideBytes (sha512 (key.noncePrefix.toList ++ message))
  let bigR := (EdwardsPoint.mulBase r).compress
  let k := Scalar.fromWideBytes (sha512 (bigR.toList ++ key.publicKey.toList ++ message))
  let s := k.mulAdd key.scalar r
  bigR ++ s.toBytes

end SigningKey

/-- The challenge that a signature's `R` gets for a key and a message. -/
def challenge (publicKey : Vector UInt8 32) (message : Bytes) (r : Vector UInt8 32) : Scalar :=
  Scalar.fromWideBytes (sha512 (r.toList ++ publicKey.toList ++ message))

/-- The tail every strict verification shares once the key itself is settled. `R` is
    decompressed only on the failure path, to classify the error. -/
def verifyTail (publicKey : Vector UInt8 32) (message : Bytes) (signature : Vector UInt8 64)
    (recompute : Scalar → Scalar → EdwardsPoint) : Except SignatureError Unit := do
  let s ← okOr (Scalar.fromCanonicalBytes (sBytes signature)) .nonCanonicalSignatureS
  let k := challenge sha512 publicKey message (rBytes signature)
  let recomputed := recompute k s
  if (ctEqBytes recomputed.compress.toList (rBytes signature).toList).isSet then .ok ()
  else if (EdwardsPoint.decompress (rBytes signature)).isNone then .error .invalidSignatureR
  else .error .verificationFailed

/-- Verify a signature under RFC 8032 with the strict checks. -/
def verifyStrict (publicKey : Vector UInt8 32) (message : Bytes) (signature : Vector UInt8 64) :
    Except SignatureError Unit := do
  let bigA ← okOr (EdwardsPoint.decompress publicKey) .invalidPublicKey
  rejectIf bigA.isSmallOrder.isSet .smallOrderPublicKey
  verifyTail sha512 publicKey message signature fun k s =>
    EdwardsPoint.vartimeDoubleScalarMulBasepoint k bigA.negate s

/-- A public key prepared for repeated strict verification. -/
structure PreparedVerifier where
  /-- The 32-byte key this verifier was prepared from. -/
  publicKey : Vector UInt8 32
  /-- Odd multiples of the *negated* key point: the equation adds `[k](-A)`. -/
  negatedOdd : Vector AffineNiels 64

namespace PreparedVerifier

/-- Decompress the key, reject small-order points, build the table. -/
def new (publicKey : Vector UInt8 32) : Except SignatureError PreparedVerifier := do
  let bigA ← okOr (EdwardsPoint.decompress publicKey) .invalidPublicKey
  rejectIf bigA.isSmallOrder.isSet .smallOrderPublicKey
  return { publicKey, negatedOdd := bigA.negate.affineOddMultiples }

/-- Strict verification against the prepared key. -/
def verifyStrict (verifier : PreparedVerifier) (message : Bytes) (signature : Vector UInt8 64) :
    Except SignatureError Unit :=
  verifyTail sha512 verifier.publicKey message signature fun k s =>
    EdwardsPoint.vartimeDoubleScalarMulPrepared k verifier.negatedOdd s

end PreparedVerifier

end Hashing

section Halves

theorem toList_rBytes (signature : Vector UInt8 64) : (rBytes signature).toList = signature.toList.take 32 :=
  Vector.toList_take

theorem toList_sBytes (signature : Vector UInt8 64) : (sBytes signature).toList = signature.toList.drop 32 :=
  Vector.toList_drop

theorem rBytes_append (r s : Vector UInt8 32) : rBytes (r ++ s) = r := by
  apply Vector.toList_inj.mp
  rw [toList_rBytes, Vector.toList_append, List.take_left' r.length_toList]

theorem sBytes_append (r s : Vector UInt8 32) : sBytes (r ++ s) = s := by
  apply Vector.toList_inj.mp
  rw [toList_sBytes, Vector.toList_append, List.drop_left' r.length_toList]

theorem signature_ext {a b : Vector UInt8 64} (r : rBytes a = rBytes b) (s : sBytes a = sBytes b) : a = b := by
  apply Vector.toList_inj.mp
  rw [← List.take_append_drop 32 a.toList, ← List.take_append_drop 32 b.toList, ← toList_rBytes, ← toList_sBytes,
    ← toList_rBytes, ← toList_sBytes, r, s]

end Halves

section Tail

variable {sha512 : Bytes → Vector UInt8 64} {publicKey : Vector UInt8 32} {message : Bytes}
  {signature : Vector UInt8 64} {recompute : Scalar → Scalar → EdwardsPoint}

/-- The tail only looks at the encoding of what is recomputed. -/
theorem verifyTail_congr {other : Scalar → Scalar → EdwardsPoint}
    (same : ∀ k s, (recompute k s).compress = (other k s).compress) :
    verifyTail sha512 publicKey message signature recompute =
      verifyTail sha512 publicKey message signature other := by
  simp only [verifyTail, same]

theorem verifyTail_eq_nonCanonical :
    verifyTail sha512 publicKey message signature recompute = .error .nonCanonicalSignatureS ↔
      ¬ Bytes.ofLe (sBytes signature).toList < L := by
  rw [← Scalar.fromCanonicalBytes_eq_none, verifyTail]
  cases parsed : Scalar.fromCanonicalBytes (sBytes signature) with
  | none => simp [okOr, bind, Except.bind]
  | some s =>
      simp only [okOr, bind, Except.bind, reduceCtorEq, iff_false]
      split
      · simp
      · split <;> simp

variable {A : Point} (denotes : ∀ k s, (recompute k s).Denotes (s.val • B - k.val • A))

include denotes

/-- The equation, between the encodings of both its sides. -/
theorem verifyTail_eq_ok :
    verifyTail sha512 publicKey message signature recompute = .ok () ↔
      Bytes.ofLe (sBytes signature).toList < L ∧
        rBytes signature = encode (Bytes.ofLe (sBytes signature).toList • B -
          (challenge sha512 publicKey message (rBytes signature)).val • A) := by
  rw [verifyTail]
  cases parsed : Scalar.fromCanonicalBytes (sBytes signature) with
  | none =>
      have above := Scalar.fromCanonicalBytes_eq_none.mp parsed
      simp [okOr, bind, Except.bind, above]
  | some s =>
      have value := Scalar.fromCanonicalBytes_val parsed
      have canonical : Bytes.ofLe (sBytes signature).toList < L := value ▸ s.val_lt
      simp only [okOr, bind, Except.bind, canonical, true_and, isSet_ctEqBytes, decide_eq_true_eq,
        Vector.toList_inj, (denotes _ _).compress, value]
      constructor
      · intro accepted
        split at accepted
        · next same => exact same.symm
        · split at accepted <;> cases accepted
      · intro same
        rw [if_pos same.symm]

/-- Bytes that no point encodes to are never equal to the encoding of one, so what does not
    decompress comes to the failure path. -/
theorem verifyTail_eq_invalidR :
    verifyTail sha512 publicKey message signature recompute = .error .invalidSignatureR ↔
      Bytes.ofLe (sBytes signature).toList < L ∧ EdwardsPoint.decompress (rBytes signature) = none := by
  rw [verifyTail]
  cases parsed : Scalar.fromCanonicalBytes (sBytes signature) with
  | none =>
      have above := Scalar.fromCanonicalBytes_eq_none.mp parsed
      simp [okOr, bind, Except.bind, above]
  | some s =>
      have value := Scalar.fromCanonicalBytes_val parsed
      have canonical : Bytes.ofLe (sBytes signature).toList < L := value ▸ s.val_lt
      simp only [okOr, bind, Except.bind, canonical, true_and, isSet_ctEqBytes, decide_eq_true_eq,
        Vector.toList_inj, (denotes _ _).compress]
      constructor
      · intro refused
        split at refused
        · cases refused
        · split at refused
          · next invalid => exact Option.isNone_iff_eq_none.mp invalid
          · cases refused
      · intro invalid
        have unnamed := EdwardsPoint.decompress_eq_none.mp invalid
        rw [if_neg (unnamed _), invalid]
        rfl

end Tail

section Key

variable (sha512 : Bytes → Vector UInt8 64) {publicKey : Vector UInt8 32}

/-- What becomes of a key: both ways to verify refuse it alike, or both come to the tail. -/
inductive Settled (publicKey : Vector UInt8 32) : Prop
  | invalid : EdwardsPoint.decompress publicKey = none →
      PreparedVerifier.new publicKey = .error .invalidPublicKey →
      (∀ message signature, verifyStrict sha512 publicKey message signature = .error .invalidPublicKey) →
      Settled publicKey
  | smallOrder (bigA : EdwardsPoint) (A : Point) : EdwardsPoint.decompress publicKey = some bigA →
      bigA.Denotes A → 8 • A = 0 →
      PreparedVerifier.new publicKey = .error .smallOrderPublicKey →
      (∀ message signature, verifyStrict sha512 publicKey message signature = .error .smallOrderPublicKey) →
      Settled publicKey
  | sound (bigA : EdwardsPoint) (A : Point) : EdwardsPoint.decompress publicKey = some bigA →
      bigA.Denotes A → 8 • A ≠ 0 →
      PreparedVerifier.new publicKey = .ok ⟨publicKey, bigA.negate.affineOddMultiples⟩ →
      (∀ message signature, verifyStrict sha512 publicKey message signature =
        verifyTail sha512 publicKey message signature fun k s =>
          EdwardsPoint.vartimeDoubleScalarMulBasepoint k bigA.negate s) →
      Settled publicKey

theorem settled (publicKey : Vector UInt8 32) : Settled sha512 publicKey := by
  cases found : EdwardsPoint.decompress publicKey with
  | none =>
      apply Settled.invalid found
      · rw [PreparedVerifier.new, found, okOr_none_bind]
      · intro message signature
        rw [verifyStrict, found, okOr_none_bind]
  | some bigA =>
      obtain ⟨A, denotes, -⟩ := EdwardsPoint.decompress_sound found
      have order := denotes.isSet_isSmallOrder
      by_cases small : bigA.isSmallOrder.isSet = true
      · apply Settled.smallOrder bigA A found denotes (order.mp small)
        · rw [PreparedVerifier.new, found, okOr_some_bind, rejectIf_bind_of small]
        · intro message signature
          rw [verifyStrict, found, okOr_some_bind, rejectIf_bind_of small]
      · apply Settled.sound bigA A found denotes (mt order.mpr small)
        · rw [PreparedVerifier.new, found, okOr_some_bind, rejectIf_bind_of_not small, pure_eq_ok]
        · intro message signature
          rw [verifyStrict, found, okOr_some_bind, rejectIf_bind_of_not small]

/-- With the key's point negated, the point recomputed is the right side of the equation. -/
private theorem recomputed_denotes {bigA : EdwardsPoint} {A : Point} (denotes : bigA.Denotes A) (k s : Scalar) :
    (EdwardsPoint.vartimeDoubleScalarMulBasepoint k bigA.negate s).Denotes (s.val • B - k.val • A) := by
  have sum := EdwardsPoint.vartimeDoubleScalarMulBasepoint_denotes denotes.negate k s
  have value : s.val • B - k.val • A = k.val • -A + s.val • B := by module
  rwa [value]

/-- Both tables give the same point in other coordinates, and so the same encoding. -/
private theorem prepared_compress {bigA : EdwardsPoint} {A : Point} (denotes : bigA.Denotes A) (k s : Scalar) :
    (EdwardsPoint.vartimeDoubleScalarMulPrepared k bigA.negate.affineOddMultiples s).compress =
      (EdwardsPoint.vartimeDoubleScalarMulBasepoint k bigA.negate s).compress := by
  rw [(EdwardsPoint.vartimeDoubleScalarMulPrepared_denotes denotes.negate k s).compress,
    (EdwardsPoint.vartimeDoubleScalarMulBasepoint_denotes denotes.negate k s).compress]

/-- A signature whose `S` is not reduced is refused for it, one whose `S` is zero is not. -/
private theorem tail_varies (recompute : Scalar → Scalar → EdwardsPoint) (e : SignatureError) :
    ¬ ∀ message signature, verifyTail sha512 publicKey message signature recompute = .error e := by
  intro constant
  have top : ¬ Bytes.ofLe (sBytes (Vector.replicate 64 255)).toList < L := by decide +kernel
  have zero : Bytes.ofLe (sBytes (Vector.replicate 64 0)).toList < L := by decide +kernel
  have refused := @verifyTail_eq_nonCanonical sha512 publicKey [] _ recompute |>.mpr top
  rw [constant, ← constant [] (Vector.replicate 64 0)] at refused
  exact verifyTail_eq_nonCanonical.mp refused zero

/-- Preparing a key fails with what every strict verification under it fails with; and
    against a prepared key each signature gets the answer that the free function gives. -/
theorem preparedVerifier_agrees (publicKey : Vector UInt8 32) :
    (∀ e, PreparedVerifier.new publicKey = .error e ↔
      ∀ message signature, verifyStrict sha512 publicKey message signature = .error e) ∧
    (∀ e, PreparedVerifier.new publicKey = .error e → e = .invalidPublicKey ∨ e = .smallOrderPublicKey) ∧
    (∀ verifier, PreparedVerifier.new publicKey = .ok verifier →
      ∀ message signature, verifier.verifyStrict sha512 message signature =
        verifyStrict sha512 publicKey message signature) := by
  cases settled sha512 publicKey with
  | invalid found refused fails =>
      rw [refused]
      refine ⟨fun e => ⟨fun same message signature => ?_, fun constant => ?_⟩, fun e same => ?_, ?_⟩
      · rw [fails, Except.error.inj same]
      · have same := (fails [] (.replicate 64 0)).symm.trans (constant [] (.replicate 64 0))
        rw [Except.error.inj same]
      · exact .inl (Except.error.inj same).symm
      · intro verifier prepared
        cases prepared
  | smallOrder bigA A found denotes order refused fails =>
      rw [refused]
      refine ⟨fun e => ⟨fun same message signature => ?_, fun constant => ?_⟩, fun e same => ?_, ?_⟩
      · rw [fails, Except.error.inj same]
      · have same := (fails [] (.replicate 64 0)).symm.trans (constant [] (.replicate 64 0))
        rw [Except.error.inj same]
      · exact .inr (Except.error.inj same).symm
      · intro verifier prepared
        cases prepared
  | sound bigA A found denotes order prepared tail =>
      rw [prepared]
      refine ⟨fun e => ⟨fun same => ?_, fun constant => ?_⟩, fun e same => ?_, ?_⟩
      · cases same
      · simp only [tail] at constant
        exact absurd constant (tail_varies sha512 _ e)
      · cases same
      · intro verifier same message signature
        obtain rfl := Except.ok.inj same
        rw [tail, PreparedVerifier.verifyStrict]
        exact verifyTail_congr (prepared_compress denotes)

/-- A public key is never of small order: the group order divides no clamped scalar. -/
theorem publicKey_order (seed : Vector UInt8 32) :
    8 • ((SigningKey.fromSeed sha512 seed).scalar.val • B) ≠ 0 := by
  obtain ⟨j, value, above, below⟩ := clamp_value ((sha512 seed.toList).take 32)
  have order := two_pow_lt_L
  have small : 64 < L := Nat.lt_trans (by norm_num) order
  rw [SigningKey.fromSeed, Scalar.fromBytesModOrder_val, value, mod_nsmul_B, smul_smul]
  intro zero
  rw [← zero_nsmul B, nsmul_B_eq_iff, Nat.zero_mod] at zero
  have divides : L ∣ 64 * j := by
    apply Nat.dvd_of_mod_eq_zero
    rw [← zero]
    congr 1
    omega
  cases L_prime.dvd_mul.mp divides with
  | inl cofactor => exact absurd (Nat.le_of_dvd (by decide) cofactor) (by omega)
  | inr scalar => exact absurd (Nat.le_of_dvd (by omega) scalar) (by omega)

/-- The key check passed: it names a point that is not of small order. -/
def NamesKey (publicKey : Vector UInt8 32) (bigA : EdwardsPoint) (A : Point) : Prop :=
  EdwardsPoint.decompress publicKey = some bigA ∧ bigA.Denotes A ∧ 8 • A ≠ 0

/-- The integer that challenges a signature, as the hash gives it. -/
theorem challenge_val (publicKey : Vector UInt8 32) (message : Bytes) (r : Vector UInt8 32) :
    (challenge sha512 publicKey message r).val =
      Bytes.ofLe (sha512 (r.toList ++ publicKey.toList ++ message)).toList % L :=
  Scalar.fromWideBytes_val _

/-- Under a key that names a point, the answer is that of the tail. -/
theorem NamesKey.verifyStrict_eq {publicKey : Vector UInt8 32} {bigA : EdwardsPoint} {A : Point}
    (names : NamesKey publicKey bigA A) (message : Bytes) (signature : Vector UInt8 64) :
    verifyStrict sha512 publicKey message signature =
      verifyTail sha512 publicKey message signature fun k s =>
        EdwardsPoint.vartimeDoubleScalarMulBasepoint k bigA.negate s := by
  obtain ⟨found, denotes, order⟩ := names
  have large := mt denotes.isSet_isSmallOrder.mp order
  rw [verifyStrict, found, okOr_some_bind, rejectIf_bind_of_not large]

/-- Only under such a key does anything but a key error come out. -/
theorem NamesKey.of_verifyStrict {publicKey : Vector UInt8 32} {message : Bytes} {signature : Vector UInt8 64}
    (key : verifyStrict sha512 publicKey message signature ≠ .error .invalidPublicKey)
    (order : verifyStrict sha512 publicKey message signature ≠ .error .smallOrderPublicKey) :
    ∃ bigA A, NamesKey publicKey bigA A := by
  cases settled sha512 publicKey with
  | invalid _ _ fails => exact absurd (fails message signature) key
  | smallOrder _ _ _ _ _ _ fails => exact absurd (fails message signature) order
  | sound bigA A found denotes large _ _ => exact ⟨bigA, A, found, denotes, large⟩

/-- Every signature made under a seed verifies under its public key. -/
theorem verifyStrict_sign (seed : Vector UInt8 32) (message : Bytes) :
    let key := SigningKey.fromSeed sha512 seed
    let signature := key.sign sha512 message
    verifyStrict sha512 key.verifyingKey message signature = .ok () ∧
      ∃ bigA s, EdwardsPoint.decompress key.verifyingKey = some bigA ∧ bigA.isSmallOrder.isSet = false ∧
        Scalar.fromCanonicalBytes (sBytes signature) = some s ∧ Bytes.ofLe (sBytes signature).toList < L ∧
        (EdwardsPoint.vartimeDoubleScalarMulBasepoint
          (challenge sha512 key.verifyingKey message (rBytes signature)) bigA.negate s).compress =
          rBytes signature := by
  intro key signature
  have encoded : encode (key.scalar.val • B) = key.verifyingKey :=
    (EdwardsPoint.mulBase_denotes key.scalar).compress.symm
  obtain ⟨bigA, found⟩ := EdwardsPoint.decompress_complete encoded
  obtain ⟨A, denotes, sameKey⟩ := EdwardsPoint.decompress_sound found
  obtain rfl : A = key.scalar.val • B := encode_injective (sameKey.trans encoded.symm)
  have names : NamesKey key.verifyingKey bigA (key.scalar.val • B) := ⟨found, denotes, publicKey_order sha512 seed⟩
  have large := mt denotes.isSet_isSmallOrder.mp (publicKey_order sha512 seed)
  rw [Bool.not_eq_true] at large
  set r := Scalar.fromWideBytes (sha512 (key.noncePrefix.toList ++ message)) with nonce
  set k := challenge sha512 key.publicKey message (EdwardsPoint.mulBase r).compress with challenged
  have halves : signature = (EdwardsPoint.mulBase r).compress ++ (k.mulAdd key.scalar r).toBytes := rfl
  have first : rBytes signature = (EdwardsPoint.mulBase r).compress := by rw [halves, rBytes_append]
  have second : sBytes signature = (k.mulAdd key.scalar r).toBytes := by rw [halves, sBytes_append]
  have scalar : Bytes.ofLe (sBytes signature).toList = (k.val * key.scalar.val + r.val) % L := by
    rw [second, Scalar.ofLe_toBytes, Scalar.mulAdd_val]
  have reduced : Bytes.ofLe (sBytes signature).toList < L := by
    rw [scalar]
    exact Nat.mod_lt _ L_prime.pos
  have equation : r.val • B = Bytes.ofLe (sBytes signature).toList • B - k.val • (key.scalar.val • B) := by
    rw [scalar, mod_nsmul_B, add_nsmul, mul_nsmul', add_sub_cancel_left]
  have sameR : rBytes signature =
      encode (Bytes.ofLe (sBytes signature).toList • B - k.val • (key.scalar.val • B)) := by
    rw [first, (EdwardsPoint.mulBase_denotes r).compress, equation]
  have sameK : challenge sha512 key.verifyingKey message (rBytes signature) = k := by rw [first]; rfl
  constructor
  · rw [names.verifyStrict_eq, verifyTail_eq_ok (recomputed_denotes denotes), sameK]
    exact ⟨reduced, sameR⟩
  · cases parsed : Scalar.fromCanonicalBytes (sBytes signature) with
    | none => exact absurd reduced (Scalar.fromCanonicalBytes_eq_none.mp parsed)
    | some s =>
        refine ⟨bigA, s, found, large, rfl, reduced, ?_⟩
        rw [(recomputed_denotes denotes _ s).compress, sameK, Scalar.fromCanonicalBytes_val parsed, sameR]

/-- One response at most satisfies the equation, for the order of the base point. -/
private theorem response_unique {m n : Nat} {C : Point} (hm : m < L) (hn : n < L)
    (same : encode (m • B - C) = encode (n • B - C)) : m = n := by
  have points : m • B - C = n • B - C := encode_injective same
  have multiples : m • B = n • B := by rw [← sub_add_cancel (m • B) C, points, sub_add_cancel]
  rwa [nsmul_B_eq_iff, Nat.mod_eq_of_lt hm, Nat.mod_eq_of_lt hn] at multiples

/-- Which signatures are accepted, and how the others are told apart. -/
theorem verifyStrict_characterization (publicKey : Vector UInt8 32) (message : Bytes) :
    (∀ signature, verifyStrict sha512 publicKey message signature = .ok () ↔
      ∃ bigA A, NamesKey publicKey bigA A ∧ Bytes.ofLe (sBytes signature).toList < L ∧
        rBytes signature = encode (Bytes.ofLe (sBytes signature).toList • B -
          (Bytes.ofLe (sha512 ((rBytes signature).toList ++ publicKey.toList ++ message)).toList % L) • A)) ∧
    (∀ signature, verifyStrict sha512 publicKey message signature = .ok () →
      ∃ bigR, EdwardsPoint.decompress (rBytes signature) = some bigR) ∧
    (∀ signature, verifyStrict sha512 publicKey message signature = .error .invalidSignatureR ↔
      (∃ bigA A, NamesKey publicKey bigA A) ∧ Bytes.ofLe (sBytes signature).toList < L ∧
        EdwardsPoint.decompress (rBytes signature) = none) ∧
    (∀ a b, rBytes a = rBytes b → verifyStrict sha512 publicKey message a = .ok () →
      verifyStrict sha512 publicKey message b = .ok () → a = b) := by
  have accepted : ∀ signature, verifyStrict sha512 publicKey message signature = .ok () →
      ∃ bigA A, NamesKey publicKey bigA A := by
    intro signature ok
    apply @NamesKey.of_verifyStrict sha512 publicKey message signature <;> rw [ok] <;> exact nofun
  have equation : ∀ {bigA A}, NamesKey publicKey bigA A → ∀ signature,
      (verifyStrict sha512 publicKey message signature = .ok () ↔
        Bytes.ofLe (sBytes signature).toList < L ∧
        rBytes signature = encode (Bytes.ofLe (sBytes signature).toList • B -
          (Bytes.ofLe (sha512 ((rBytes signature).toList ++ publicKey.toList ++ message)).toList % L) • A)) := by
    intro bigA A names signature
    rw [names.verifyStrict_eq, verifyTail_eq_ok (recomputed_denotes names.2.1), challenge_val]
  refine ⟨fun signature => ⟨fun ok => ?_, fun ⟨bigA, A, names, rest⟩ => ?_⟩, fun signature ok => ?_,
    fun signature => ⟨fun refused => ?_, fun ⟨⟨bigA, A, names⟩, rest⟩ => ?_⟩, fun a b sameR okA okB => ?_⟩
  · obtain ⟨bigA, A, names⟩ := accepted signature ok
    exact ⟨bigA, A, names, (equation names signature).mp ok⟩
  · exact (equation names signature).mpr rest
  · obtain ⟨bigA, A, names⟩ := accepted signature ok
    exact EdwardsPoint.decompress_complete ((equation names signature).mp ok).2.symm
  · have key : ∃ bigA A, NamesKey publicKey bigA A := by
      apply @NamesKey.of_verifyStrict sha512 publicKey message signature <;> rw [refused] <;>
        exact nofun
    obtain ⟨bigA, A, names⟩ := key
    rw [names.verifyStrict_eq] at refused
    exact ⟨⟨bigA, A, names⟩, (verifyTail_eq_invalidR (recomputed_denotes names.2.1)).mp refused⟩
  · rw [names.verifyStrict_eq]
    exact (verifyTail_eq_invalidR (recomputed_denotes names.2.1)).mpr rest
  · obtain ⟨bigA, A, names⟩ := accepted a okA
    obtain ⟨reducedA, equationA⟩ := (equation names a).mp okA
    obtain ⟨reducedB, equationB⟩ := (equation names b).mp okB
    rw [sameR] at equationA
    have same := response_unique reducedB reducedA (equationB.symm.trans equationA)
    have lengths : (sBytes b).toList.length = (sBytes a).toList.length := by
      rw [Vector.length_toList, Vector.length_toList]
    have sameS : (sBytes b).toList = (sBytes a).toList := (Bytes.ofLe_inj lengths).mp same
    exact signature_ext sameR (Vector.toList_inj.mp sameS.symm)

section Signing

variable (seed : Vector UInt8 32)

/-- The public key of a seed is the encoding of its scalar's multiple. -/
theorem namesKey_fromSeed : ∃ bigA, NamesKey (SigningKey.fromSeed sha512 seed).verifyingKey bigA
    ((SigningKey.fromSeed sha512 seed).scalar.val • B) := by
  have encoded : encode ((SigningKey.fromSeed sha512 seed).scalar.val • B) =
      (SigningKey.fromSeed sha512 seed).verifyingKey :=
    (EdwardsPoint.mulBase_denotes (SigningKey.fromSeed sha512 seed).scalar).compress.symm
  obtain ⟨bigA, found⟩ := EdwardsPoint.decompress_complete encoded
  obtain ⟨A, denotes, sameKey⟩ := EdwardsPoint.decompress_sound found
  obtain rfl : A = _ := encode_injective (sameKey.trans encoded.symm)
  exact ⟨bigA, found, denotes, publicKey_order sha512 seed⟩

/-- The response that a signature carries answers its challenge. -/
theorem sign_answers (message : Bytes) :
    let key := SigningKey.fromSeed sha512 seed
    let signature := key.sign sha512 message
    Bytes.ofLe (sBytes signature).toList < L ∧
      rBytes signature = encode (Bytes.ofLe (sBytes signature).toList • B -
        (challenge sha512 key.verifyingKey message (rBytes signature)).val • (key.scalar.val • B)) := by
  intro key signature
  set r := Scalar.fromWideBytes (sha512 (key.noncePrefix.toList ++ message)) with nonce
  set k := challenge sha512 key.publicKey message (EdwardsPoint.mulBase r).compress with challenged
  have halves : signature = (EdwardsPoint.mulBase r).compress ++ (k.mulAdd key.scalar r).toBytes := rfl
  have first : rBytes signature = (EdwardsPoint.mulBase r).compress := by rw [halves, rBytes_append]
  have second : Bytes.ofLe (sBytes signature).toList = (k.val * key.scalar.val + r.val) % L := by
    rw [halves, sBytes_append, Scalar.ofLe_toBytes, Scalar.mulAdd_val]
  have sameK : challenge sha512 key.verifyingKey message (rBytes signature) = k := by rw [first]; rfl
  rw [sameK, second, first, (EdwardsPoint.mulBase_denotes r).compress]
  refine ⟨Nat.mod_lt _ L_prime.pos, ?_⟩
  rw [mod_nsmul_B, add_nsmul, mul_nsmul', add_sub_cancel_left]

theorem verifyStrict_eq_ok_of_signed (message : Bytes) :
    verifyStrict sha512 (SigningKey.fromSeed sha512 seed).verifyingKey message
      ((SigningKey.fromSeed sha512 seed).sign sha512 message) = .ok () := by
  obtain ⟨bigA, names⟩ := namesKey_fromSeed sha512 seed
  rw [names.verifyStrict_eq, verifyTail_eq_ok (recomputed_denotes names.2.1)]
  exact sign_answers sha512 seed message

end Signing

end Key

end Blindplane.Crypto
