import Blindplane.Wire.Encode
import Blindplane.Wire.Limits
import Blindplane.Wire.Layout

/-! # The decoder accepts exactly the encoder's image

Each reader of the cursor is described by the words it passes over, and the grammar of
a whole record is computed from them. It turns out to be the encoding itself, so the
re-encoding check of `decode` can never fail, no slice is ever out of bounds, and what
is accepted is a matter of limits only.
-/

namespace Blindplane.Wire

open Lib Lib.Utf8 Lib.Checked Crypto

namespace Cursor

/-- The unread input. -/
def rest (cursor : Cursor) : Bytes := cursor.bytes.drop cursor.offset

/-- Positions of one byte string, and the words between them. -/
def tape : Tape Cursor UInt8 where
  Valid cursor := cursor.offset ≤ cursor.bytes.length
  Passes cursor w next := next.bytes = cursor.bytes ∧ next.offset = cursor.offset + w.length ∧
    next.offset ≤ next.bytes.length ∧ cursor.rest = w ++ next.rest
  valid passes := passes.2.2.1
  nil_iff {cursor next} valid := by
    constructor
    · rintro ⟨bytes, offset, -, -⟩
      cases cursor
      cases next
      simp_all
    · rintro rfl
      exact ⟨rfl, rfl, valid, rfl⟩
  append_iff {cursor u v next} := by
    constructor
    · rintro ⟨bytes, offset, valid, unread⟩
      have after : cursor.bytes.drop (cursor.offset + u.length) = v ++ next.rest := by
        rw [← List.drop_drop, ← rest, unread, List.append_assoc, List.drop_left]
      simp only [List.length_append] at offset
      refine ⟨⟨cursor.bytes, cursor.offset + u.length⟩, ⟨rfl, rfl, ?_, ?_⟩, bytes, ?_, valid, after⟩
      · simp only [bytes] at valid
        show cursor.offset + u.length ≤ cursor.bytes.length
        omega
      · rw [unread, List.append_assoc]
        exact congrArg (u ++ ·) after.symm
      · show next.offset = cursor.offset + u.length + v.length
        omega
    · rintro ⟨mid, ⟨bytes, offset, _, unread⟩, bytes', offset', valid', unread'⟩
      exact ⟨bytes'.trans bytes, by rw [offset', offset, List.length_append, Nat.add_assoc], valid',
        by rw [unread, unread', List.append_assoc]⟩

end Cursor

/-- The failures a parser may have: an error of its own, never the verdict of the re-encoding
    check, and no panic but that of a vector whose memory may be refused. -/
inductive ParseError (refused : Prop) : Fault WireError → Prop where
  | error {e : WireError} (own : e ≠ .nonCanonicalEncoding) : ParseError refused (.error e)
  | capacity (possible : refused) : ParseError refused (.panic .capacity)

abbrev Parses {α : Type} (refused : Prop) (reader : Reader α) (R : α → Bytes → Prop) : Prop :=
  Accepts Cursor.tape (ParseError refused) reader R

namespace Parses

open Cursor

variable {refused : Prop}

/-- In range, the slice is the next `len` bytes; out of range the cursor says so before
    slicing. -/
theorem takeExact_run (len : Nat) (cursor : Cursor) : (takeExact len).run cursor =
    if cursor.offset + len ≤ cursor.bytes.length
    then .ok (cursor.rest.take len, ⟨cursor.bytes, cursor.offset + len⟩)
    else .error (.error .truncated) := by
  by_cases inside : cursor.offset + len ≤ cursor.bytes.length
  · simp [takeExact, StateT.run, rejectIf, slice, inside, Nat.not_lt.mpr inside, Cursor.rest, bind,
      Except.bind, pure, Except.pure]
  · simp [takeExact, StateT.run, rejectIf, inside, Nat.lt_of_not_le inside, bind, Except.bind]

theorem takeExact (len : Nat) :
    Parses refused (Cursor.takeExact len) (Encodes id (·.length = len)) where
  ok_iff {cursor} valid bytes next := by
    rw [takeExact_run]
    constructor
    · intro taken
      split at taken
      · next inside =>
        simp only [Except.ok.injEq, Prod.mk.injEq] at taken
        obtain ⟨rfl, rfl⟩ := taken
        have length : (cursor.rest.take len).length = len := by
          simp only [Cursor.rest, List.length_take, List.length_drop]
          omega
        refine ⟨cursor.rest.take len, ⟨length, rfl⟩, rfl, by rw [length], inside, ?_⟩
        rw [Cursor.rest, Cursor.rest, ← List.drop_drop, List.take_append_drop]
      · simp at taken
    · rintro ⟨w, ⟨length, rfl⟩, sameBytes, offset, inside, unread⟩
      obtain ⟨_, _⟩ := next
      obtain rfl := sameBytes
      simp only [length] at offset unread
      obtain rfl := offset
      rw [if_pos inside, unread, ← length, List.take_left]
  error {cursor} _ fault failed := by
    rw [takeExact_run] at failed
    split at failed
    · simp at failed
    · obtain rfl : _ = fault := by simpa using failed
      exact .error (by simp)

theorem takeArray (n : Nat) :
    Parses refused (Cursor.takeArray n) (Encodes Vector.toList (fun _ => True)) := by
  refine ((Parses.takeExact n).field fun bytes length => Accepts.embed ?_).congr fun array w => ?_
  · intro fault failed
    have found := Bytes.asArray_isSome.mpr length
    cases h : Bytes.asArray n bytes <;> simp_all [okOr]
  · simp only [okOr_eq_ok, Bytes.asArray_eq_some, Encodes, true_and, id_eq]
    constructor
    · rintro ⟨_, _, _, ⟨rfl, rfl⟩, rfl⟩
      exact List.append_nil _
    · rintro rfl
      exact ⟨_, array.length_toList, [], ⟨rfl, rfl⟩, (List.append_nil _).symm⟩

theorem takeU8 : Parses refused Cursor.takeU8 (Encodes (fun byte => [byte]) (fun _ => True)) := by
  refine ((Parses.takeExact 1).field fun bytes length => Accepts.embed ?_).congr fun byte w => ?_
  · intro fault failed
    obtain ⟨byte, rfl⟩ := List.length_eq_one_iff.mp length
    simp [okOr] at failed
  · simp only [okOr_eq_ok, Encodes, true_and, id_eq]
    constructor
    · rintro ⟨bytes, length, _, ⟨head, rfl⟩, rfl⟩
      obtain ⟨only, rfl⟩ := List.length_eq_one_iff.mp length
      simpa using head
    · rintro rfl
      exact ⟨[byte], rfl, [], ⟨rfl, rfl⟩, rfl⟩

/-- A machine word is read back from exactly its big-endian bytes. -/
private theorem word {n : Nat} {α : Type} {enc : α → Bytes} {value : Bytes → α}
    (left : ∀ bytes : Bytes, bytes.length = n → enc (value bytes) = bytes)
    (right : ∀ a, value (enc a) = a) (width : ∀ a, (enc a).length = n) :
    Parses refused (do let bytes ← Cursor.takeArray n; return value bytes.toList)
      (Encodes enc (fun _ => True)) := by
  refine ((Parses.takeArray n).field fun bytes _ => Accepts.pure (value bytes.toList)).congr
    fun a w => ?_
  simp only [Encodes, true_and]
  constructor
  · rintro ⟨bytes, _, ⟨rfl, rfl⟩, rfl⟩
    rw [left _ bytes.length_toList, List.append_nil]
  · rintro rfl
    obtain ⟨array, found⟩ := Option.isSome_iff_exists.mp (Bytes.asArray_isSome.mpr (width a))
    rw [Bytes.asArray_eq_some] at found
    exact ⟨array, [], ⟨by rw [← found, right], rfl⟩, by rw [List.append_nil, found]⟩

theorem takeU16 : Parses refused Cursor.takeU16 (Encodes Bytes.u16 (fun _ => True)) :=
  word (fun _ => Bytes.u16_ofBe) Bytes.ofBe_u16 Bytes.u16_length

theorem takeU32 : Parses refused Cursor.takeU32 (Encodes Bytes.u32 (fun _ => True)) :=
  word (fun _ => Bytes.u32_ofBe) Bytes.ofBe_u32 Bytes.u32_length

theorem takeU64 : Parses refused Cursor.takeU64 (Encodes Bytes.u64 (fun _ => True)) :=
  word (fun _ => Bytes.u64_ofBe) Bytes.ofBe_u64 Bytes.u64_length

theorem lengthLimit_lt (policy : ValidationPolicy) : lengthLimit policy < 2 ^ 64 := by
  have := policy.maxCiphertextBytes.toNat_lt
  simp only [lengthLimit]
  omega

theorem takeBytes (policy : ValidationPolicy) :
    Parses refused (Cursor.takeBytes policy)
      (Encodes (Bytes.framed 8) (·.length ≤ lengthLimit policy)) := by
  refine (takeU64.field fun len _ => Accepts.guard (fun _ => .error (by simp))
    (Parses.takeExact len.toNat)).congr fun bytes w => ?_
  constructor
  · rintro ⟨len, -, _, ⟨within, length, rfl⟩, rfl⟩
    exact ⟨length.trans_le within, by rw [Bytes.framed, length]; rfl⟩
  · rintro ⟨within, rfl⟩
    have exact_len : (UInt64.ofNat bytes.length).toNat = bytes.length :=
      UInt64.toNat_ofNat_of_lt' (within.trans_lt (lengthLimit_lt policy))
    refine ⟨UInt64.ofNat bytes.length, trivial, bytes, ⟨?_, ?_, rfl⟩, ?_⟩
    · rwa [exact_len]
    · exact exact_len.symm
    · rw [Bytes.framed, Bytes.u64, exact_len]

theorem takeLen (most : Usize) :
    Parses refused (Cursor.takeLen most) (Encodes (Bytes.be 8) (· ≤ most.toNat)) := by
  refine (takeU64.field fun len _ => Accepts.guard (fun _ => .error (by simp))
    (Accepts.pure len.toNat)).congr fun count w => ?_
  constructor
  · rintro ⟨len, -, _, ⟨within, rfl, rfl⟩, rfl⟩
    exact ⟨within, List.append_nil _⟩
  · rintro ⟨within, rfl⟩
    have exact_len : (UInt64.ofNat count).toNat = count :=
      UInt64.toNat_ofNat_of_lt' (within.trans_lt most.toNat_lt)
    refine ⟨UInt64.ofNat count, trivial, [], ⟨?_, ?_, rfl⟩, ?_⟩
    · rwa [exact_len]
    · exact exact_len.symm
    · rw [Bytes.u64, exact_len, List.append_nil]

end Parses

/-- The parser's two bounds on an identifier. -/
structure IdentifierFits (policy : ValidationPolicy) (value : String) : Prop where
  prefixed : (asBytes value).length ≤ Cursor.lengthLimit policy
  identifier : (asBytes value).length ≤ policy.maxIdentifierBytes.toNat

structure ContextFits (policy : ValidationPolicy) (context : RecordContext) : Prop where
  tenant : IdentifierFits policy context.tenant
  objectId : IdentifierFits policy context.objectId
  field : IdentifierFits policy context.field

namespace Parses

open Cursor

variable {refused : Prop}

theorem takeString (policy : ValidationPolicy) :
    Parses refused (Cursor.takeString policy)
      (Encodes (fun value => Bytes.framed 8 (asBytes value)) (IdentifierFits policy)) := by
  refine ((takeBytes policy).field fun bytes _ => Accepts.guard (fun _ => .error (by simp))
    (Accepts.embed ?_)).congr fun value w => ?_
  · intro fault failed
    cases h : fromUtf8 bytes <;> simp [okOr, h] at failed
    exact failed ▸ .error (by simp)
  · simp only [okOr_eq_ok, fromUtf8_eq_some]
    constructor
    · rintro ⟨_, prefixed, _, ⟨identifier, rfl, rfl⟩, rfl⟩
      exact ⟨⟨prefixed, identifier⟩, List.append_nil _⟩
    · rintro ⟨fits, rfl⟩
      exact ⟨_, fits.prefixed, [], ⟨fits.identifier, rfl, rfl⟩, (List.append_nil _).symm⟩

/-- Whatever the policy, 4096 bytes may follow a length prefix. -/
theorem short_fits {policy : ValidationPolicy} {len : Nat} (short : len ≤ 4096) :
    len ≤ lengthLimit policy :=
  short.trans (le_max_right _ _)

theorem contextFields (policy : ValidationPolicy) :
    Parses refused (Wire.contextFields policy)
      (Encodes RecordContext.canonicalBytes (ContextFits policy)) := by
  refine ((takeBytes policy).field fun domain _ => Accepts.guard (fun _ => .error (by simp))
    ((takeString policy).field fun tenant _ => (takeString policy).field fun objectId _ =>
      (takeString policy).field fun field _ => takeU64.field fun epoch _ =>
      takeU64.field fun version _ => takeU32.field fun schemaVersion _ =>
      Accepts.pure (RecordContext.mk tenant objectId field epoch version schemaVersion))).congr
    fun context w => ?_
  simp only [Encodes, RecordContext.canonicalBytes_eq]
  constructor
  · rintro ⟨_, -, _, ⟨rfl, tenant, tenantFits, _, ⟨objectId, objectIdFits, _, ⟨field, fieldFits, _,
      ⟨epoch, -, _, ⟨version, -, _, ⟨schemaVersion, -, _, ⟨rfl, rfl⟩, rfl⟩, rfl⟩, rfl⟩, rfl⟩, rfl⟩,
      rfl⟩, rfl⟩
    exact ⟨⟨tenantFits, objectIdFits, fieldFits⟩, by rw [List.append_nil]⟩
  · rintro ⟨fits, rfl⟩
    exact ⟨contextDomain, short_fits (by decide), _, ⟨rfl, _, fits.tenant, _, ⟨_, fits.objectId, _,
      ⟨_, fits.field, _, ⟨_, trivial, _, ⟨_, trivial, _, ⟨_, trivial, _, ⟨rfl, rfl⟩, rfl⟩, rfl⟩, rfl⟩,
      rfl⟩, rfl⟩, rfl⟩, by simp only [List.append_nil]⟩

end Parses

/-- A reader run over a whole string returns exactly the value it encodes. -/
theorem readAll_eq_ok {α : Type} {refused : Prop} {reader : Reader α} {enc : α → Bytes} {ok : α → Prop}
    (parses : Parses refused reader (Encodes enc ok)) {bytes : Bytes} {a : α} :
    readAll reader bytes = .ok a ↔ ok a ∧ bytes = enc a := by
  have valid : Cursor.tape.Valid (Cursor.new bytes) := Nat.zero_le _
  have read : readAll reader bytes = .ok a ↔
      ∃ cursor, reader.run (Cursor.new bytes) = .ok (a, cursor) ∧ cursor.isEmpty := by
    simp only [readAll, bind_eq_ok, rejectIf_eq_ok, pure_eq_ok, exists_const, Prod.exists]
    simp [and_comm]
  rw [read]
  simp only [parses.ok_iff valid]
  constructor
  · rintro ⟨cursor, ⟨_, ⟨holds, rfl⟩, sameBytes, offset, -, unread⟩, atEnd⟩
    have unreadNil : cursor.rest = [] := by
      have atEnd : cursor.offset = cursor.bytes.length := by simpa [Cursor.isEmpty] using atEnd
      simp [Cursor.rest, atEnd]
    rw [unreadNil, List.append_nil] at unread
    exact ⟨holds, unread⟩
  · rintro ⟨holds, rfl⟩
    exact ⟨⟨enc a, (enc a).length⟩, ⟨enc a, ⟨holds, rfl⟩, rfl, by simp [Cursor.new], le_rfl,
      by simp [Cursor.rest, Cursor.new]⟩, by simp [Cursor.isEmpty]⟩

theorem readAll_error {α : Type} {refused : Prop} {reader : Reader α} {R : α → Bytes → Prop}
    (parses : Parses refused reader R) {bytes : Bytes} {fault : Fault WireError}
    (failed : readAll reader bytes = .error fault) : ParseError refused fault := by
  have valid : Cursor.tape.Valid (Cursor.new bytes) := Nat.zero_le _
  cases ran : reader.run (Cursor.new bytes) with
  | error e =>
      obtain rfl : e = fault := by simpa [readAll, ran, bind, Except.bind] using failed
      exact parses.error valid _ ran
  | ok result =>
      obtain ⟨a, cursor⟩ := result
      cases empty : cursor.isEmpty
      · obtain rfl : Fault.error WireError.trailingBytes = fault := by
          simpa [readAll, ran, bind, Except.bind, rejectIf, empty] using failed
        exact .error (by simp)
      · simp [readAll, ran, bind, Except.bind, rejectIf, empty, pure, Except.pure] at failed

theorem decodeContext_error {refused : Prop} {bytes : Bytes} {policy : ValidationPolicy} {fault : Fault WireError}
    (failed : decodeContext bytes policy = .error fault) : ParseError refused fault :=
  readAll_error (Parses.contextFields policy) failed

theorem decodeContext_eq_ok {bytes : Bytes} {policy : ValidationPolicy} {context : RecordContext} :
    decodeContext bytes policy = .ok context ↔
      ContextFits policy context ∧ bytes = context.canonicalBytes :=
  readAll_eq_ok (@Parses.contextFields False policy)

/-- The parser's bounds on one envelope. -/
structure EnvelopeFits (policy : ValidationPolicy) (envelope : RecipientEnvelope) : Prop where
  recipientId : IdentifierFits policy envelope.recipientId
  encapsulatedKey : envelope.encapsulatedKey.length ≤ Cursor.lengthLimit policy
  wrappedDek : envelope.wrappedDek.length ≤ Cursor.lengthLimit policy

/-- The parser's bounds on one blind index. -/
structure IndexFits (policy : ValidationPolicy) (index : BlindIndex) : Prop where
  label : IdentifierFits policy index.label
  canonicalizerId : IdentifierFits policy index.canonicalizerId

/-- Everything the parser asks of a record besides its layout. -/
structure RecordFits (policy : ValidationPolicy) (record : SealedRecord) : Prop where
  formatVersion : record.formatVersion = FORMAT_VERSION
  contextBytes : record.context.canonicalBytes.length ≤ Cursor.lengthLimit policy
  context : ContextFits policy record.context
  nonce : record.nonce.length ≤ Cursor.lengthLimit policy
  ciphertext : record.ciphertext.length ≤ Cursor.lengthLimit policy
  recipientsMax : record.recipients.length ≤ policy.maxRecipients.toNat
  recipients : ∀ envelope ∈ record.recipients, EnvelopeFits policy envelope
  indexesMax : record.indexes.length ≤ policy.maxIndexes.toNat
  indexes : ∀ index ∈ record.indexes, IndexFits policy index
  signature : record.signature.length ≤ Cursor.lengthLimit policy

namespace Allocator

/-- The record's two vectors have their memory. -/
structure Grants (alloc : Allocator) (record : SealedRecord) : Prop where
  envelopes : alloc.envelopes record.recipients.length
  indexes : alloc.indexes record.indexes.length

theorem granting_grants (record : SealedRecord) : granting.Grants record := ⟨rfl, rfl⟩

/-- A count within the policy's limits for which there is no memory. -/
def Refuses (alloc : Allocator) (policy : ValidationPolicy) : Prop :=
  (∃ count ≤ policy.maxRecipients.toNat, ¬ alloc.envelopes count) ∨ ∃ count ≤ policy.maxIndexes.toNat, ¬ alloc.indexes count

theorem granting_not_refuses (policy : ValidationPolicy) : ¬ granting.Refuses policy := by
  rintro (⟨_, _, refused⟩ | ⟨_, _, refused⟩) <;> exact refused rfl

end Allocator

namespace Parses

open Cursor

variable {refused : Prop}

theorem recipientFields (policy : ValidationPolicy) :
    Parses refused (Wire.recipientFields policy)
      (Encodes RecipientEnvelope.layout (EnvelopeFits policy)) := by
  refine ((takeString policy).field fun recipientId _ => takeU64.field fun keyEpoch _ =>
      (takeArray 32).field fun recipientKeyId _ => (takeBytes policy).field fun encapsulatedKey _ =>
      (takeBytes policy).field fun wrappedDek _ =>
      Accepts.pure (RecipientEnvelope.mk recipientId keyEpoch recipientKeyId encapsulatedKey
        wrappedDek)).congr fun envelope w => ?_
  simp only [Encodes, RecipientEnvelope.layout]
  constructor
  · rintro ⟨recipientId, idFits, _, ⟨keyEpoch, -, _, ⟨recipientKeyId, -, _, ⟨encapsulatedKey, keyFits,
      _, ⟨wrappedDek, dekFits, _, ⟨rfl, rfl⟩, rfl⟩, rfl⟩, rfl⟩, rfl⟩, rfl⟩
    exact ⟨⟨idFits, keyFits, dekFits⟩, by rw [List.append_nil]⟩
  · rintro ⟨fits, rfl⟩
    exact ⟨_, fits.recipientId, _, ⟨_, trivial, _, ⟨_, trivial, _, ⟨_, fits.encapsulatedKey, _,
      ⟨_, fits.wrappedDek, _, ⟨rfl, rfl⟩, rfl⟩, rfl⟩, rfl⟩, rfl⟩, by simp only [List.append_nil]⟩

theorem indexFields (policy : ValidationPolicy) :
    Parses refused (Wire.indexFields policy) (Encodes BlindIndex.layout (IndexFits policy)) := by
  refine ((takeString policy).field fun label _ => takeU32.field fun schemaVersion _ =>
      (takeString policy).field fun canonicalizerId _ => takeU16.field fun canonicalizerVersion _ =>
      takeU64.field fun keyEpoch _ => (takeArray INDEX_TOKEN_LEN).field fun token _ =>
      Accepts.pure (BlindIndex.mk label schemaVersion canonicalizerId canonicalizerVersion keyEpoch
        token)).congr fun index w => ?_
  simp only [Encodes, BlindIndex.layout]
  constructor
  · rintro ⟨label, labelFits, _, ⟨schemaVersion, -, _, ⟨canonicalizerId, idFits, _,
      ⟨canonicalizerVersion, -, _, ⟨keyEpoch, -, _, ⟨token, -, _, ⟨rfl, rfl⟩, rfl⟩, rfl⟩, rfl⟩, rfl⟩,
      rfl⟩, rfl⟩
    exact ⟨⟨labelFits, idFits⟩, by rw [List.append_nil]⟩
  · rintro ⟨fits, rfl⟩
    exact ⟨_, fits.label, _, ⟨_, trivial, _, ⟨_, fits.canonicalizerId, _, ⟨_, trivial, _,
      ⟨_, trivial, _, ⟨_, trivial, _, ⟨rfl, rfl⟩, rfl⟩, rfl⟩, rfl⟩, rfl⟩, rfl⟩,
      by simp only [List.append_nil]⟩

/-- The byte of a suite is its code, and no other byte names a suite. -/
theorem suiteFromCode_eq_ok {code : UInt8} {suite : Suite} :
    suiteFromCode code = .ok suite ↔ code = suite.code := by
  unfold suiteFromCode
  constructor
  · intro named
    split at named
    · obtain rfl := Except.ok.inj named
      assumption
    · split at named
      · obtain rfl := Except.ok.inj named
        assumption
      · split at named
        · obtain rfl := Except.ok.inj named
          assumption
        · cases named
  · rintro rfl
    cases suite <;> rfl

private theorem suite_error {code : UInt8} {fault : Fault WireError}
    (failed : (suiteFromCode code).mapError Fault.error = .error fault) : ParseError refused fault := by
  unfold suiteFromCode at failed
  split_ifs at failed <;> simp only [mapError_ok, mapError_error, reduceCtorEq, Except.error.injEq] at failed
  exact failed ▸ .error (by simp)

/-- The lists of a record, its signer and its signature: the fields after the ciphertext. -/
private theorem listFields (policy : ValidationPolicy) (alloc : Allocator)
    (build : List RecipientEnvelope → List BlindIndex → Vector UInt8 32 → Bytes → SealedRecord) :
    Parses (alloc.Refuses policy) (do
        let recipientCount ← Cursor.takeLen policy.maxRecipients
        Process.ensure (alloc.envelopes recipientCount) (.panic .capacity)
        let recipients ← Process.times recipientCount (Wire.recipientFields policy)
        let indexCount ← Cursor.takeLen policy.maxIndexes
        Process.ensure (alloc.indexes indexCount) (.panic .capacity)
        let indexes ← Process.times indexCount (Wire.indexFields policy)
        let signerPublicKey ← Cursor.takeArray32
        let signature ← Cursor.takeBytes policy
        return build recipients indexes signerPublicKey signature)
      (fun record w => ∃ recipients indexes signer signature,
        record = build recipients indexes signer signature ∧
        recipients.length ≤ policy.maxRecipients.toNat ∧ alloc.envelopes recipients.length ∧
        (∀ envelope ∈ recipients, EnvelopeFits policy envelope) ∧
        indexes.length ≤ policy.maxIndexes.toNat ∧ alloc.indexes indexes.length ∧
        (∀ index ∈ indexes, IndexFits policy index) ∧
        signature.length ≤ Cursor.lengthLimit policy ∧
        w = Bytes.be 8 recipients.length ++ (recipients.flatMap RecipientEnvelope.layout ++
          (Bytes.be 8 indexes.length ++ (indexes.flatMap BlindIndex.layout ++
            (signer.toList ++ Bytes.framed 8 signature))))) := by
  refine ((takeLen policy.maxRecipients).field fun recipientCount few =>
    Accepts.guard (fun refused => .capacity (.inl ⟨recipientCount, few, refused⟩))
    (((recipientFields policy).times recipientCount).bind fun recipients _ _ =>
    (takeLen policy.maxIndexes).field fun indexCount few =>
    Accepts.guard (fun refused => .capacity (.inr ⟨indexCount, few, refused⟩))
    (((indexFields policy).times indexCount).bind fun indexes _ _ =>
    (takeArray 32).field fun signer _ => (takeBytes policy).field fun signature _ =>
    Accepts.pure (build recipients indexes signer signature)))).congr fun record w => ?_
  constructor
  · rintro ⟨_, recipientsMax, _, ⟨envelopes, recipients, _, _, ⟨rfl, recipientsFit, rfl⟩, ⟨_, indexesMax, _,
      ⟨granted, indexes, _, _, ⟨rfl, indexesFit, rfl⟩, ⟨signer, -, _, ⟨signature, signatureFits, _,
      ⟨built, rfl⟩, rfl⟩, rfl⟩, rfl⟩, rfl⟩, rfl⟩, rfl⟩
    exact ⟨recipients, indexes, signer, signature, built, recipientsMax, envelopes, recipientsFit, indexesMax,
      granted, indexesFit, signatureFits, by rw [List.append_nil]⟩
  · rintro ⟨recipients, indexes, signer, signature, built, recipientsMax, envelopes, recipientsFit, indexesMax,
      granted, indexesFit, signatureFits, rfl⟩
    refine ⟨_, recipientsMax, _, ⟨envelopes, recipients, _, _, ⟨rfl, recipientsFit, rfl⟩, ?_, rfl⟩, rfl⟩
    refine ⟨_, indexesMax, _, ⟨granted, indexes, _, _, ⟨rfl, indexesFit, rfl⟩, ?_, rfl⟩, rfl⟩
    exact ⟨signer, trivial, _, ⟨signature, signatureFits, [], ⟨built, rfl⟩,
      (List.append_nil _).symm⟩, rfl⟩

/-- The grammar of a whole record is its encoding. -/
theorem recordFields (policy : ValidationPolicy) (alloc : Allocator) :
    Parses (alloc.Refuses policy) (Wire.recordFields policy alloc)
      (Encodes SealedRecord.encode fun record => RecordFits policy record ∧ alloc.Grants record) := by
  refine ((takeBytes policy).field fun domain _ => Accepts.guard (fun _ => .error (by simp))
    (takeU16.field fun formatVersion _ => Accepts.guard (fun _ => .error (by simp))
    (takeU8.field fun code _ => Accepts.compute (fun _ => suite_error) fun suite _ =>
      (takeBytes policy).field fun contextBytes _ =>
      Accepts.compute (fun _ => decodeContext_error) fun context _ =>
      takeU64.field fun manifestRevision _ => (takeArray 32).field fun previousManifestHash _ =>
      (takeArray 32).field fun keyCommitment _ => (takeBytes policy).field fun nonce _ =>
      (takeBytes policy).field fun ciphertext _ =>
      listFields policy alloc (SealedRecord.mk formatVersion suite context manifestRevision
        previousManifestHash keyCommitment nonce ciphertext)))).congr fun record w => ?_
  simp only [Encodes, SealedRecord.encode_eq, SealedRecord.signingBytes_eq, mapError_eq_ok,
    suiteFromCode_eq_ok, decodeContext_eq_ok]
  constructor
  · rintro ⟨_, -, _, ⟨rfl, _, -, _, ⟨rfl, _, -, _, ⟨suite, rfl, _, contextLen, _, ⟨context,
      ⟨contextFits, rfl⟩, revision, -, _, ⟨previous, -, _, ⟨commitment, -, _, ⟨nonce, nonceFits, _,
      ⟨ciphertext, ciphertextFits, _, lists, rfl⟩, rfl⟩, rfl⟩, rfl⟩, rfl⟩, rfl⟩, rfl⟩, rfl⟩, rfl⟩
    obtain ⟨recipients, indexes, signer, signature, rfl, recipientsMax, envelopes, recipientsFit, indexesMax,
      granted, indexesFit, signatureFits, rfl⟩ := lists
    exact
      ⟨⟨{ formatVersion := rfl, contextBytes := contextLen, context := contextFits, nonce := nonceFits
          ciphertext := ciphertextFits, recipientsMax, recipients := recipientsFit, indexesMax
          indexes := indexesFit, signature := signatureFits }, envelopes, granted⟩,
        by simp only [List.append_assoc]⟩
  · rintro ⟨⟨fits, grants⟩, rfl⟩
    obtain ⟨formatVersion, suite, context, revision, previous, commitment, nonce, ciphertext,
      recipients, indexes, signer, signature⟩ := record
    obtain rfl : formatVersion = FORMAT_VERSION := fits.formatVersion
    simp only [List.append_assoc]
    refine ⟨recordDomain, short_fits (by decide), _, ⟨rfl, FORMAT_VERSION, trivial, _, ⟨rfl, ?_⟩,
      rfl⟩, rfl⟩
    refine ⟨_, trivial, _, ⟨suite, rfl, _, fits.contextBytes, _, ⟨context, ⟨fits.context, rfl⟩, ?_⟩,
      rfl⟩, rfl⟩
    refine ⟨revision, trivial, _, ⟨previous, trivial, _, ⟨commitment, trivial, _, ?_, rfl⟩, rfl⟩, rfl⟩
    refine ⟨nonce, fits.nonce, _, ⟨ciphertext, fits.ciphertext, _, ?_, rfl⟩, rfl⟩
    exact ⟨recipients, indexes, signer, signature, rfl, fits.recipientsMax, grants.envelopes, fits.recipients,
      fits.indexesMax, grants.indexes, fits.indexes, fits.signature, rfl⟩

end Parses

end Blindplane.Wire
