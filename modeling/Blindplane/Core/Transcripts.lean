import Blindplane.Core.Derive
import Blindplane.Crypto.Sha2.Hash
import Blindplane.Wire.Injective

/-! # The transcripts of the client

Everything the client authenticates beside a record itself starts with a domain and goes on
with fields that say where they end. The domains are prefix-free, those with a length before
them as well as those without, so that a transcript tells its kind, and then its inputs.
-/

namespace Blindplane.Core

open Lib Lib.Utf8 Lib.Bytes Lib.Checked Crypto Wire

section Indexes

def INDEX_DOMAIN : Bytes := asBytes "blindplane/exact-index/v1"

/-- A versioned definition of a raw-byte exact index. -/
structure ExactIndexDefinition where
  label : String
  schemaVersion : UInt32
  keyEpoch : UInt64
  valid : ¬ ((asBytes label).length = 0 ∨ (asBytes label).length > ValidationPolicy.default.maxIdentifierBytes.toNat ∨
    schemaVersion = 0 ∨ keyEpoch = 0)

/-- Define a scoped raw-byte index. -/
def ExactIndexDefinition.rawBytes (label : String) (schemaVersion : UInt32) (keyEpoch : UInt64) :
    Except CryptoError ExactIndexDefinition :=
  if refused : (asBytes label).length = 0 ∨ (asBytes label).length > ValidationPolicy.default.maxIdentifierBytes.toNat ∨
      schemaVersion = 0 ∨ keyEpoch = 0 then
    .error .invalidIndexScope
  else .ok { label, schemaVersion, keyEpoch, valid := refused }

/-- The secret key for scoped exact blind indexes. -/
structure SearchKey where
  secret : Vector UInt8 32

variable [Primitives]

/-- Create an equality token scoped to a versioned definition. -/
def SearchKey.exactTokenRaw (key : SearchKey) (tenant : String) (definition : ExactIndexDefinition) (value : Bytes) :
    Except CryptoError BlindIndex := do
  rejectIf ((asBytes tenant).length = 0 ∨
      (asBytes tenant).length > ValidationPolicy.default.maxIdentifierBytes.toNat) .invalidIndexScope
  let mac := HmacSha256.new key.secret.toList
  let mac := mac.update INDEX_DOMAIN
  let mac := macBytes mac (asBytes tenant)
  let mac := macBytes mac (asBytes definition.label)
  let mac := mac.update (Bytes.u32 definition.schemaVersion)
  let mac := macBytes mac (asBytes "raw_bytes")
  let mac := mac.update (Bytes.u16 1)
  let mac := mac.update (Bytes.u64 definition.keyEpoch)
  let mac := macBytes mac value
  let digest := mac.finalize
  return { label := definition.label
           schemaVersion := definition.schemaVersion
           canonicalizerId := "raw_bytes"
           canonicalizerVersion := 1
           keyEpoch := definition.keyEpoch
           token := fixed INDEX_TOKEN_LEN digest.toList }

end Indexes

section Inputs

/-- What a token is the MAC of. -/
def tokenInput (tenant : String) (definition : ExactIndexDefinition) (value : Bytes) : Bytes :=
  INDEX_DOMAIN ++ framed 8 (asBytes tenant) ++ framed 8 (asBytes definition.label) ++ u32 definition.schemaVersion ++
    framed 8 (asBytes "raw_bytes") ++ u16 1 ++ u64 definition.keyEpoch ++ framed 8 value

/-- What a key commitment is the MAC of. -/
def commitmentInput (suite : Suite) (context : RecordContext) : Bytes :=
  COMMITMENT_DOMAIN ++ [suite.code] ++ framed 8 context.canonicalBytes

theorem macBytes_eq (mac : HmacSha256) (bytes : Bytes) : macBytes mac bytes = mac.update (framed 8 bytes) :=
  mac.update_update _ _

variable [Primitives]

theorem exactTokenRaw_eq (key : SearchKey) (tenant : String) (definition : ExactIndexDefinition) (value : Bytes) :
    key.exactTokenRaw tenant definition value = do
      rejectIf ((asBytes tenant).length = 0 ∨
        (asBytes tenant).length > ValidationPolicy.default.maxIdentifierBytes.toNat) .invalidIndexScope
      return { label := definition.label
               schemaVersion := definition.schemaVersion
               canonicalizerId := "raw_bytes"
               canonicalizerVersion := 1
               keyEpoch := definition.keyEpoch
               token := fixed INDEX_TOKEN_LEN
                 (HmacSha256.mac key.secret.toList (tokenInput tenant definition value)).toList } := by
  simp only [SearchKey.exactTokenRaw, macBytes_eq, HmacSha256.update_update, HmacSha256.mac, tokenInput]

theorem commitKey_eq (commitmentKey : Vector UInt8 32) (suite : Suite) (context : RecordContext) :
    commitKey commitmentKey suite context = HmacSha256.mac commitmentKey.toList (commitmentInput suite context) := by
  simp only [commitKey, macBytes_eq, HmacSha256.update_update, HmacSha256.mac, commitmentInput]

end Inputs

section Kinds

variable [Primitives]

/-- Everything that is authenticated. -/
inductive Transcript where
  | token (tenant : String) (definition : ExactIndexDefinition) (value : Bytes)
  | hpkeInfo (context : RecordContext) (recipient : Recipient)
  | hpkeAad (context : RecordContext) (recipient : Recipient)
  | payloadAad (suite : Suite) (context : RecordContext)
  | commitment (suite : Suite) (context : RecordContext)
  | signature (record : SealedRecord)

namespace Transcript

def bytes : Transcript → Bytes
  | token tenant definition value => tokenInput tenant definition value
  | hpkeInfo context recipient => Core.hpkeInfo context recipient
  | hpkeAad context recipient => Core.hpkeAad context recipient
  | payloadAad suite context => Wire.payloadAad suite context
  | commitment suite context => commitmentInput suite context
  | signature record => record.signingBytes

/-- Every field is shorter than `2 ^ 64`. -/
def Sized : Transcript → Prop
  | token tenant _ value => (asBytes tenant).length < 2 ^ 64 ∧ value.length < 2 ^ 64
  | hpkeInfo context recipient | hpkeAad context recipient =>
      context.Sized ∧ (asBytes recipient.recipientId).length < 2 ^ 64
  | payloadAad _ context | commitment _ context => context.Sized
  | signature record => record.Sized

/-- The kind and the inputs are the same; of a recipient, what identifies it, and of a record
    all that the signature covers. -/
def Agrees : Transcript → Transcript → Prop
  | token tenant definition value, token tenant' definition' value' =>
      tenant = tenant' ∧ definition.label = definition'.label ∧ definition.schemaVersion = definition'.schemaVersion ∧
        definition.keyEpoch = definition'.keyEpoch ∧ value = value'
  | hpkeInfo context recipient, hpkeInfo context' recipient'
  | hpkeAad context recipient, hpkeAad context' recipient' =>
      context = context' ∧ recipient.recipientId = recipient'.recipientId ∧ recipient.keyEpoch = recipient'.keyEpoch ∧
        recipient.recipientKeyId = recipient'.recipientKeyId
  | payloadAad suite context, payloadAad suite' context'
  | commitment suite context, commitment suite' context' => suite = suite' ∧ context = context'
  | signature record, signature record' => record.AgreesUnsigned record'
  | _, _ => False

end Transcript

/-- The kinds, without their inputs. -/
inductive Kind where
  | token | hpkeInfo | hpkeAad | payloadAad | commitment | signature
  deriving DecidableEq, Repr

/-- What every transcript of a kind starts with. -/
def Kind.domain : Kind → Bytes
  | token => INDEX_DOMAIN
  | hpkeInfo => framed 8 HPKE_INFO_DOMAIN
  | hpkeAad => framed 8 HPKE_AAD_DOMAIN
  | payloadAad => framed 8 payloadAadDomain
  | commitment => COMMITMENT_DOMAIN
  | signature => framed 8 recordDomain

def Kind.all : List Kind := [token, hpkeInfo, hpkeAad, payloadAad, commitment, signature]

omit [Primitives] in
theorem Kind.mem_all (kind : Kind) : kind ∈ Kind.all := by
  cases kind <;> decide

omit [Primitives] in
/-- No domain begins another. -/
theorem Kind.domain_prefixFree {a b : Kind} (begins : a.domain <+: b.domain) : a = b := by
  have all : ∀ a ∈ Kind.all, ∀ b ∈ Kind.all, a.domain <+: b.domain → a = b := by decide +kernel
  exact all a a.mem_all b b.mem_all begins

namespace Transcript

def kind : Transcript → Kind
  | token .. => .token
  | hpkeInfo .. => .hpkeInfo
  | hpkeAad .. => .hpkeAad
  | payloadAad .. => .payloadAad
  | commitment .. => .commitment
  | signature .. => .signature

theorem hpkeTranscript_eq (domain : Bytes) (context : RecordContext) (recipient : Recipient) :
    hpkeTranscript domain context recipient = framed 8 domain ++ (framed 8 context.canonicalBytes ++
      (framed 8 (asBytes recipient.recipientId) ++ (u64 recipient.keyEpoch ++ recipient.recipientKeyId.toList))) := by
  simp only [hpkeTranscript, pushBytes_eq, List.nil_append, List.append_assoc]

omit [Primitives] in
theorem payloadAad_eq (suite : Suite) (context : RecordContext) :
    Wire.payloadAad suite context = framed 8 payloadAadDomain ++ ([suite.code] ++ framed 8 context.canonicalBytes) := by
  simp only [Wire.payloadAad, pushBytes_eq, List.nil_append, List.append_assoc]

theorem domain_prefix (a : Transcript) : a.kind.domain <+: a.bytes := by
  cases a with
  | token tenant definition value =>
      simp only [bytes, tokenInput, kind, Kind.domain, List.append_assoc]
      exact List.prefix_append _ _
  | hpkeInfo context recipient =>
      rw [bytes, Core.hpkeInfo, hpkeTranscript_eq]
      exact List.prefix_append _ _
  | hpkeAad context recipient =>
      rw [bytes, Core.hpkeAad, hpkeTranscript_eq]
      exact List.prefix_append _ _
  | payloadAad suite context =>
      rw [bytes, payloadAad_eq]
      exact List.prefix_append _ _
  | commitment suite context =>
      simp only [bytes, commitmentInput, kind, Kind.domain, List.append_assoc]
      exact List.prefix_append _ _
  | signature record =>
      rw [bytes, SealedRecord.signingBytes_eq]
      exact List.prefix_append _ _

/-- A transcript tells its kind. -/
theorem kind_eq {a b : Transcript} (same : a.bytes = b.bytes) : a.kind = b.kind := by
  have first := a.domain_prefix
  have second := b.domain_prefix
  rw [same] at first
  cases List.prefix_or_prefix_of_prefix first second with
  | inl begins => exact Kind.domain_prefixFree begins
  | inr begins => exact (Kind.domain_prefixFree begins).symm

omit [Primitives] in
/-- A framed context. Its frame has a fixed width and its fields delimit it, so that it needs
    no bound of its own. -/
theorem framed_context {a b : RecordContext} {s t : Bytes} (ha : a.Sized) (hb : b.Sized)
    (same : framed 8 a.canonicalBytes ++ s = framed 8 b.canonicalBytes ++ t) : a = b ∧ s = t := by
  simp only [framed, List.append_assoc] at same
  obtain ⟨-, rest⟩ := List.append_inj same (by simp only [be_length])
  exact context_delimited ha hb rest

theorem hpkeTranscript_inj {domain : Bytes} {context context' : RecordContext} {recipient recipient' : Recipient}
    (sized : context.Sized ∧ (asBytes recipient.recipientId).length < 2 ^ 64)
    (sized' : context'.Sized ∧ (asBytes recipient'.recipientId).length < 2 ^ 64)
    (same : hpkeTranscript domain context recipient = hpkeTranscript domain context' recipient') :
    context = context' ∧ recipient.recipientId = recipient'.recipientId ∧ recipient.keyEpoch = recipient'.keyEpoch ∧
      recipient.recipientKeyId = recipient'.recipientKeyId := by
  rw [hpkeTranscript_eq, hpkeTranscript_eq] at same
  have rest := List.append_cancel_left same
  obtain ⟨contexts, rest⟩ := framed_context sized.1 sized'.1 rest
  obtain ⟨recipientId, rest⟩ := string_delimited sized.2 sized'.2 rest
  obtain ⟨keyEpoch, rest⟩ := u64_delimited trivial trivial rest
  exact ⟨contexts, recipientId, keyEpoch, Vector.toList_inj.mp rest⟩

omit [Primitives] in
/-- A suite and a framed context, behind a domain. -/
theorem suite_context_inj {domain : Bytes} {suite suite' : Suite} {context context' : RecordContext}
    (sized : context.Sized) (sized' : context'.Sized)
    (same : domain ++ ([suite.code] ++ framed 8 context.canonicalBytes) =
      domain ++ ([suite'.code] ++ framed 8 context'.canonicalBytes)) : suite = suite' ∧ context = context' := by
  obtain ⟨suites, rest⟩ := suite_delimited trivial trivial (List.append_cancel_left same)
  have ended : framed 8 context.canonicalBytes ++ [] = framed 8 context'.canonicalBytes ++ [] := by
    rw [List.append_nil, List.append_nil, rest]
  exact ⟨suites, (framed_context sized sized' ended).1⟩

omit [Primitives] in
theorem token_inj {tenant tenant' : String} {definition definition' : ExactIndexDefinition} {value value' : Bytes}
    (sized : (asBytes tenant).length < 2 ^ 64 ∧ value.length < 2 ^ 64)
    (sized' : (asBytes tenant').length < 2 ^ 64 ∧ value'.length < 2 ^ 64)
    (same : tokenInput tenant definition value = tokenInput tenant' definition' value') :
    tenant = tenant' ∧ definition.label = definition'.label ∧ definition.schemaVersion = definition'.schemaVersion ∧
      definition.keyEpoch = definition'.keyEpoch ∧ value = value' := by
  have short (definition : ExactIndexDefinition) : (asBytes definition.label).length < 2 ^ 64 := by
    have valid := definition.valid
    have max : ValidationPolicy.default.maxIdentifierBytes.toNat = 255 := rfl
    rw [max] at valid
    omega
  simp only [tokenInput, List.append_assoc] at same
  have rest := List.append_cancel_left same
  obtain ⟨tenants, rest⟩ := string_delimited sized.1 sized'.1 rest
  obtain ⟨label, rest⟩ := string_delimited (short definition) (short definition') rest
  obtain ⟨schemaVersion, rest⟩ := u32_delimited trivial trivial rest
  have rest := List.append_cancel_left (List.append_cancel_left rest)
  obtain ⟨keyEpoch, rest⟩ := u64_delimited trivial trivial rest
  have ended : framed 8 value ++ [] = framed 8 value' ++ [] := by
    rw [List.append_nil, List.append_nil, rest]
  exact ⟨tenants, label, schemaVersion, keyEpoch, (framed_delimited 8 sized.2 sized'.2 ended).1⟩

/-- Equal transcripts are of one kind and come from the same inputs. -/
theorem determined {a b : Transcript} (ha : a.Sized) (hb : b.Sized) (same : a.bytes = b.bytes) : a.Agrees b := by
  have kinds := kind_eq same
  cases a with
  | token tenant definition value =>
      cases b with
      | token tenant' definition' value' => exact token_inj ha hb same
      | _ => cases kinds
  | hpkeInfo context recipient =>
      cases b with
      | hpkeInfo context' recipient' => exact hpkeTranscript_inj ha hb same
      | _ => cases kinds
  | hpkeAad context recipient =>
      cases b with
      | hpkeAad context' recipient' => exact hpkeTranscript_inj ha hb same
      | _ => cases kinds
  | payloadAad suite context =>
      cases b with
      | payloadAad suite' context' =>
          simp only [bytes, payloadAad_eq] at same
          exact suite_context_inj ha hb same
      | _ => cases kinds
  | commitment suite context =>
      cases b with
      | commitment suite' context' =>
          simp only [bytes, commitmentInput, List.append_assoc] at same
          exact suite_context_inj ha hb same
      | _ => cases kinds
  | signature record =>
      cases b with
      | signature record' =>
          have ended : record.signingBytes ++ [] = record'.signingBytes ++ [] := by
            rw [List.append_nil, List.append_nil]
            exact same
          exact (SealedRecord.signingBytes_delimited ha hb ended).1
      | _ => cases kinds

end Transcript

/-- What the client authenticates is determined by the bytes it authenticates: tokens and key
    commitments are MACs of transcripts, and equal transcripts, of whatever kinds, are of one
    kind and come from the same inputs. -/
theorem transcripts_determined :
    (∀ (key : SearchKey) (tenant : String) (definition : ExactIndexDefinition) (value : Bytes) (index : BlindIndex),
      key.exactTokenRaw tenant definition value = .ok index →
        index.token = fixed INDEX_TOKEN_LEN
          (HmacSha256.mac key.secret.toList (Transcript.token tenant definition value).bytes).toList) ∧
    (∀ (commitmentKey : Vector UInt8 32) (suite : Suite) (context : RecordContext),
      commitKey commitmentKey suite context =
        HmacSha256.mac commitmentKey.toList (Transcript.commitment suite context).bytes) ∧
    ∀ a b : Transcript, a.Sized → b.Sized → a.bytes = b.bytes → a.Agrees b := by
  refine ⟨?_, commitKey_eq, fun a b ha hb same => Transcript.determined ha hb same⟩
  intro key tenant definition value index made
  rw [exactTokenRaw_eq] at made
  simp only [bind_eq_ok, rejectIf_eq_ok, pure_eq_ok] at made
  obtain ⟨-, -, rfl⟩ := made
  rfl

end Kinds

/-- The crate's SHA-256, with no signature that verifies. -/
@[reducible] def hashPrimitives : Primitives where
  sha256 message := fixed 32 ((Sha2.Sha256.digest false message).getD [])
  verifyStrict _ _ _ := .error .verificationFailed
  PreparedVerifier := Vector UInt8 32
  publicKey verifier := verifier
  preparedVerifyStrict _ _ _ := .error .verificationFailed

/-- One context under two suites, and under two domains. -/
theorem transcripts_determined_suites :
    let _ := hashPrimitives
    let aad := Transcript.payloadAad .chaCha20Poly1305 sampleContext
    aad.bytes ≠ (Transcript.payloadAad .aes256Gcm sampleContext).bytes ∧
      aad.bytes ≠ (Transcript.commitment .chaCha20Poly1305 sampleContext).bytes := by
  intro _ aad
  have sized : sampleContext.Sized := ⟨by decide, by decide, by decide⟩
  constructor
  · intro same
    obtain ⟨suites, -⟩ := transcripts_determined.2.2 aad (.payloadAad .aes256Gcm sampleContext) sized sized same
    cases suites
  · intro same
    exact transcripts_determined.2.2 aad (.commitment .chaCha20Poly1305 sampleContext) sized sized same

end Blindplane.Core
