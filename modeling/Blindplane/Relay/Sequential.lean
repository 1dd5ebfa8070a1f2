import Blindplane.Lib.Front
import Blindplane.Relay.Server

/-! # The laws of a sequential history

What has been accepted so far determines what is stored: for each key the bytes of the
last accepted write, and these only ever grow in rank.
-/

namespace Blindplane.Relay

open Lib Lib.Checked Lib.Machine Crypto Wire Std

variable {C : Type}

abbrev ServeEvent (C : Type) := Event StoreInner (C × Request) Response

/-- The encoding an event stored under a key, if it did. -/
def accepted (key : RecordKey) (event : ServeEvent C) : Option Bytes :=
  match event.input.2, event.output with
  | .put route encoded, .written (.ok _) => if route = key then some encoded else none
  | _, _ => none

/-- The encoding of the most recently accepted write for a key. -/
def latest (key : RecordKey) (past : List (ServeEvent C)) : Option Bytes :=
  (past.filterMap (accepted key)).getLast?

variable [Primitives]

/-- Answer a request, whoever made it. -/
def serveFor (policy : ValidationPolicy) (store : StoreInner) (input : C × Request) :
    Response × StoreInner :=
  serve policy store input.2

/-- The later encoding is of greater rank. -/
def Supersedes (policy : ValidationPolicy) (earlier later : Bytes) : Prop :=
  ∃ a b, SealedRecord.decode earlier policy = .ok a ∧ SealedRecord.decode later policy = .ok b ∧
    rank a < rank b

theorem Supersedes.trans {policy : ValidationPolicy} {a b c : Bytes} (ab : Supersedes policy a b)
    (bc : Supersedes policy b c) : Supersedes policy a c := by
  obtain ⟨first, second, decodesA, decodesB, lower⟩ := ab
  obtain ⟨second', third, decodesB', decodesC, lower'⟩ := bc
  obtain rfl := Except.ok.inj (decodesB.symm.trans decodesB')
  exact ⟨first, third, decodesA, decodesC, lower.trans lower'⟩

theorem supersedes_iff {policy : ValidationPolicy} {earlier later : Bytes} {a b : SealedRecord}
    (decodesA : SealedRecord.decode earlier policy = .ok a) (decodesB : SealedRecord.decode later policy = .ok b) :
    Supersedes policy earlier later ↔ rank a < rank b := by
  constructor
  · rintro ⟨first, second, readsA, readsB, lower⟩
    obtain rfl := Except.ok.inj (decodesA.symm.trans readsA)
    obtain rfl := Except.ok.inj (decodesB.symm.trans readsB)
    exact lower
  · exact fun lower => ⟨a, b, decodesA, decodesB, lower⟩

/-- What one write can do: it is accepted when eligible and ahead of what is held, and
    otherwise answers an error over an unchanged store. -/
theorem putEncoded_cases (policy : ValidationPolicy) (store : StoreInner) (key : RecordKey)
    (encoded : Bytes) :
    (∃ record receipt, Eligible policy key encoded record ∧
        (∀ held, store.records[key]? = some held → rank held < rank record) ∧
        putEncoded policy store key encoded = (.ok receipt, store.replace key record)) ∨
      (¬ ∃ record, Eligible policy key encoded record ∧
        ∀ held, store.records[key]? = some held → rank held < rank record) ∧
        ∃ e, putEncoded policy store key encoded = (.error e, store) := by
  rw [putEncoded_eq]
  cases prepared : prepare policy key encoded with
  | error e =>
      refine .inr ⟨?_, e, rfl⟩
      rintro ⟨record, eligible, -⟩
      rw [prepare_eq_ok.mpr eligible] at prepared
      cases prepared
  | ok record =>
      dsimp only
      have eligible := prepare_eq_ok.mp prepared
      rcases store.commit_cases record with ⟨created, fresh, done⟩ | ⟨e, stale, refused⟩
      · refine .inl ⟨record, _, eligible, ?_, by rw [done, eligible.routes]; rfl⟩
        rw [← eligible.routes]
        exact StoreInner.admission_eq_ok.mp ⟨created, fresh⟩
      · refine .inr ⟨?_, .error e, by rw [refused]; rfl⟩
        rintro ⟨other, eligible', ahead⟩
        obtain rfl := Except.ok.inj (eligible.decodes.symm.trans eligible'.decodes)
        rw [← eligible.routes] at ahead
        obtain ⟨created, fresh⟩ := StoreInner.admission_eq_ok.mpr ahead
        rw [stale] at fresh
        cases fresh

/-- The store as its past made it. -/
structure Mirrors (policy : ValidationPolicy) (past : List (ServeEvent C)) (store : StoreInner) :
    Prop where
  readable : ∀ key record, store.records[key]? = some record →
    Eligible policy key record.encode record
  latest : ∀ key, latest key past = store.records[key]?.map SealedRecord.encode
  increasing : ∀ key, (past.filterMap (accepted key)).Pairwise (Supersedes policy)

theorem mirrors_empty (policy : ValidationPolicy) :
    Mirrors policy ([] : List (ServeEvent C)) StoreInner.empty where
  readable key record found := by simp [StoreInner.empty] at found
  latest key := by simp [Relay.latest, StoreInner.empty]
  increasing key := List.Pairwise.nil

/-- An event that accepts nothing leaves the past as good as it was. -/
theorem Mirrors.quiet {policy : ValidationPolicy} {past : List (ServeEvent C)} {store : StoreInner}
    (mirrors : Mirrors policy past store) {event : ServeEvent C}
    (nothing : ∀ key, accepted key event = none) : Mirrors policy (past ++ [event]) store := by
  have same : ∀ key, (past ++ [event]).filterMap (accepted key) = past.filterMap (accepted key) := by
    intro key
    simp only [List.filterMap_append, List.filterMap_cons, nothing, List.filterMap_nil,
      List.append_nil]
  exact
    { readable := mirrors.readable
      latest := fun key => by rw [Relay.latest, same]; exact mirrors.latest key
      increasing := fun key => by rw [same]; exact mirrors.increasing key }

/-- What supersedes the last of an increasing list extends it. -/
private theorem increasing_concat {policy : ValidationPolicy} {earlier : List Bytes} {last : Bytes}
    (increasing : earlier.Pairwise (Supersedes policy))
    (ahead : ∀ held, earlier.getLast? = some held → Supersedes policy held last) :
    (earlier ++ [last]).Pairwise (Supersedes policy) := by
  refine List.pairwise_append.mpr ⟨increasing, List.pairwise_singleton _ _, fun a member b only => ?_⟩
  obtain rfl := List.mem_singleton.mp only
  rcases List.eq_nil_or_concat earlier with rfl | ⟨front, held, rfl⟩
  · cases member
  · have top := ahead held (by simp)
    rw [List.concat_eq_append] at member increasing
    rcases List.mem_append.mp member with inFront | atEnd
    · exact ((List.pairwise_append.mp increasing).2.2 a inFront held (by simp)).trans top
    · obtain rfl := List.mem_singleton.mp atEnd
      exact top

/-- An accepted write becomes the latest of its key and touches no other. -/
theorem Mirrors.accept {policy : ValidationPolicy} {past : List (ServeEvent C)} {store : StoreInner}
    (mirrors : Mirrors policy past store) {key : RecordKey} {encoded : Bytes} {record : SealedRecord}
    (eligible : Eligible policy key encoded record)
    (ahead : ∀ held, store.records[key]? = some held → rank held < rank record)
    {event : ServeEvent C}
    (stored : ∀ other, accepted other event = if key = other then some encoded else none) :
    Mirrors policy (past ++ [event]) (store.replace key record) := by
  obtain rfl : encoded = record.encode := (decode_eq_ok.mp eligible.decodes).1
  have extended : ∀ other, (past ++ [event]).filterMap (accepted other) =
      past.filterMap (accepted other) ++ if key = other then [record.encode] else [] := by
    intro other
    simp only [List.filterMap_append, List.filterMap_cons, stored, List.filterMap_nil]
    by_cases same : key = other <;> simp only [same, if_true, if_false]
  refine
    { readable := fun other held found => ?_
      latest := fun other => ?_
      increasing := fun other => ?_ }
  · rw [StoreInner.getElem?_replace] at found
    split at found
    · next same =>
      obtain rfl := Option.some.inj found
      exact same ▸ eligible
    · exact mirrors.readable other held found
  · rw [Relay.latest, extended, StoreInner.getElem?_replace]
    split
    · simp
    · rw [List.append_nil]
      exact mirrors.latest other
  · rw [extended]
    split
    · next same =>
      subst same
      refine increasing_concat (mirrors.increasing key) fun held last => ?_
      have current := (mirrors.latest key).symm.trans last
      obtain ⟨old, found, rfl⟩ := Option.map_eq_some_iff.mp current
      exact ⟨old, record, (mirrors.readable key old found).decodes, eligible.decodes,
        ahead old found⟩
    · rw [List.append_nil]
      exact mirrors.increasing other

theorem Mirrors.serve {policy : ValidationPolicy} {past : List (ServeEvent C)} {store : StoreInner}
    (mirrors : Mirrors policy past store) (input : C × Request) :
    Mirrors policy
      (past ++ [⟨store, input, (serveFor policy store input).1, (serveFor policy store input).2⟩])
      (serveFor policy store input).2 := by
  obtain ⟨client, request⟩ := input
  cases request with
  | put key encoded =>
      rcases putEncoded_cases policy store key encoded with
        ⟨record, receipt, eligible, ahead, done⟩ | ⟨-, e, refused⟩
      · simp only [serveFor, Relay.serve, done]
        exact mirrors.accept eligible ahead fun other => by simp only [accepted]
      · simp only [serveFor, Relay.serve, refused]
        exact mirrors.quiet fun other => by simp only [accepted]
  | get key => exact mirrors.quiet fun other => rfl
  | search tenant label keyEpoch token => exact mirrors.quiet fun other => rfl

theorem mirrors_run (policy : ValidationPolicy) (requests : List (C × Request)) :
    Mirrors policy (trace (serveFor policy) StoreInner.empty requests)
      (final (serveFor policy) StoreInner.empty requests) := by
  have initial : Mirrors policy ([] : List (ServeEvent C)) StoreInner.empty := mirrors_empty policy
  have run := trace_history initial (fun _ _ mirrors input => mirrors.serve input) requests
  rwa [List.nil_append] at run

/-- One event of a history, seen from its past. -/
structure LawfulAfter (policy : ValidationPolicy) (past : List (ServeEvent C)) (event : ServeEvent C) :
    Prop where
  unchanged : event.output.IsErr → event.after = event.before
  admitted : ∀ key encoded record, event.input.2 = .put key encoded →
    Eligible policy key encoded record →
      (event.output.IsAccepted ↔ event.before.records[key]? = none ∨
        ∃ held, event.before.records[key]? = some held ∧ rank held < rank record)
  refused : ∀ key encoded, event.input.2 = .put key encoded →
    (∀ record, ¬ Eligible policy key encoded record) → event.output.IsErr
  readBack : ∀ key, event.input.2 = .get key →
    event.output = .fetched (okOr (latest key past) .notFound)
  readable : ∀ key encoded, latest key past = some encoded →
    ∃ record, Eligible policy key encoded record

omit [Primitives] in
private theorem ahead_iff {held : Option SealedRecord} {record : SealedRecord} :
    (∀ existing, held = some existing → rank existing < rank record) ↔
      held = none ∨ ∃ existing, held = some existing ∧ rank existing < rank record := by
  cases held <;> simp

/-- A request answered where its past left the store. -/
theorem Mirrors.lawful {policy : ValidationPolicy} {past : List (ServeEvent C)} {store : StoreInner}
    (mirrors : Mirrors policy past store) (client : C) (request : Request) :
    LawfulAfter policy past
      ⟨store, (client, request), (Relay.serve policy store request).1,
        (Relay.serve policy store request).2⟩ := by
  have readable : ∀ key encoded, Relay.latest key past = some encoded →
      ∃ record, Eligible policy key encoded record := by
    intro key encoded found
    rw [mirrors.latest] at found
    obtain ⟨record, held, rfl⟩ := Option.map_eq_some_iff.mp found
    exact ⟨record, mirrors.readable key record held⟩
  cases request with
  | put key encoded =>
      rcases putEncoded_cases policy store key encoded with
        ⟨record, receipt, eligible, ahead, done⟩ | ⟨behind, e, refused⟩
      · refine
          { unchanged := ?_, admitted := ?_, refused := ?_
            readBack := fun _ other => by cases other
            readable }
        · simp [Relay.serve, done, Response.IsErr]
        · rintro key' encoded' other same eligible'
          obtain ⟨rfl, rfl⟩ := Request.put.inj same
          obtain rfl := Except.ok.inj (eligible.decodes.symm.trans eligible'.decodes)
          exact iff_of_true ⟨receipt, by simp only [Relay.serve, done]⟩ (ahead_iff.mp ahead)
        · rintro key' encoded' same none
          obtain ⟨rfl, rfl⟩ := Request.put.inj same
          exact absurd eligible (none record)
      · refine
          { unchanged := fun _ => by simp only [Relay.serve, refused], admitted := ?_
            refused := fun _ _ _ _ => ⟨e, congrArg Prod.fst refused⟩
            readBack := fun _ other => by cases other
            readable }
        rintro key' encoded' record same eligible
        obtain ⟨rfl, rfl⟩ := Request.put.inj same
        refine iff_of_false ?_ fun ahead => behind ⟨record, eligible, ahead_iff.mpr ahead⟩
        simp [Relay.serve, refused, Response.IsAccepted]
  | get key =>
      refine
        { unchanged := fun _ => rfl
          admitted := fun _ _ _ other => by cases other
          refused := fun _ _ other => by cases other
          readBack := ?_
          readable }
      rintro key' same
      obtain rfl := Request.get.inj same
      rw [mirrors.latest]
      cases held : store.records[key]? <;>
        simp [Relay.serve, getEncoded, StoreInner.get, held, okOr, Except.map]
  | search tenant label keyEpoch token =>
      exact
        { unchanged := fun _ => rfl
          admitted := fun _ _ _ other => by cases other
          refused := fun _ _ other => by cases other
          readBack := fun _ other => by cases other
          readable }

theorem lawful_run {policy : ValidationPolicy} {requests : List (C × Request)}
    {past rest : List (ServeEvent C)} {event : ServeEvent C}
    (split : trace (serveFor policy) StoreInner.empty requests = past ++ event :: rest) :
    LawfulAfter policy past event := by
  obtain ⟨before, rfl, here, taken⟩ := trace_split split
  have outputs : event.output = (serve policy event.before event.input.2).1 :=
    congrArg Prod.fst taken
  have afters : event.after = (serve policy event.before event.input.2).2 := congrArg Prod.snd taken
  have lawful := (mirrors_run policy before).lawful event.input.1 event.input.2
  rw [← here, ← outputs, ← afters] at lawful
  exact lawful

theorem StoreInner.Consistent.serve {store : StoreInner} (consistent : store.Consistent) (policy : ValidationPolicy)
    (request : Request) : (Relay.serve policy store request).2.Consistent := by
  cases request with
  | put key encoded =>
      rcases putEncoded_cases policy store key encoded with
        ⟨record, receipt, eligible, -, done⟩ | ⟨-, e, refused⟩
      · simp only [Relay.serve, done]
        exact eligible.routes ▸ consistent.replace record
      · simp only [Relay.serve, refused]
        exact consistent
  | get key => exact consistent
  | search tenant label keyEpoch token => exact consistent

section Fronts

variable {κ β : Type} (front : Front κ (C × Request) Response β)

/-- Whatever stands in front of a relay, its store is as its past made it. -/
theorem mirrors_front (policy : ValidationPolicy) (calls : List κ) :
    Mirrors policy (trace (serveFor policy) StoreInner.empty (calls.filterMap front.passed))
      (final (front.serve (serveFor policy)) StoreInner.empty calls) := by
  rw [Front.final_serve]
  exact mirrors_run policy _

theorem consistent_front (policy : ValidationPolicy) (calls : List κ) :
    (final (front.serve (serveFor policy)) StoreInner.empty calls).Consistent := by
  rw [Front.final_serve]
  exact final_invariant StoreInner.consistent_empty fun _ holds input _ => holds.serve policy input.2

end Fronts

section Verdicts

/-- The bytes are a record of another route. -/
def Misrouted (policy : ValidationPolicy) (key : RecordKey) (encoded : Bytes) : Prop :=
  ∃ record, SealedRecord.decode encoded policy = .ok record ∧ RecordKey.of record ≠ key

/-- A critical section refuses a record that is not ahead of what is held, and stores any other. -/
theorem commit_verdict (store : StoreInner) (record : SealedRecord) :
    (∃ held, store.records[RecordKey.of record]? = some held ∧ ¬ rank held < rank record ∧
      store.commit record = (.error (.staleWrite held.context.version record.context.version), store)) ∨
    (∀ held, store.records[RecordKey.of record]? = some held → rank held < rank record) ∧
      store.commit record = (.ok ⟨record.context.version, record.manifestRevision, record.manifestHash,
        store.records[RecordKey.of record]?.isNone⟩, store.replace (RecordKey.of record) record) := by
  cases found : store.records[RecordKey.of record]? with
  | none =>
      refine .inr ⟨fun held none => (nomatch none), ?_⟩
      simp only [StoreInner.commit, found, StoreInner.admission, Option.isNone_none]
  | some held =>
      have ahead : (∃ created, StoreInner.admission (some held) record = .ok created) ↔ rank held < rank record := by
        rw [StoreInner.admission_eq_ok]
        simp only [Option.some.injEq, forall_eq']
      by_cases fresh : rank held < rank record
      · refine .inr ⟨fun other same => Option.some.inj same ▸ fresh, ?_⟩
        obtain ⟨created, admitted⟩ := ahead.mpr fresh
        obtain rfl : created = false := by
          simp only [StoreInner.admission] at admitted
          split at admitted <;> cases admitted
          rfl
        simp only [StoreInner.commit, found, admitted, Option.isNone_some]
      · refine .inl ⟨held, rfl, fresh, ?_⟩
        have refused : StoreInner.admission (some held) record =
            .error (.staleWrite held.context.version record.context.version) := by
          simp only [StoreInner.admission] at ahead ⊢
          split
          · rfl
          · next admitted =>
            rw [if_neg admitted] at ahead
            exact absurd (ahead.mp ⟨false, rfl⟩) fresh
        simp only [StoreInner.commit, found, refused]

/-- Everything a write can be answered with. -/
theorem putEncoded_verdict (policy : ValidationPolicy) (store : StoreInner) (key : RecordKey) (encoded : Bytes) :
    (¬ Misrouted policy key encoded ∧ (∀ record, ¬ Eligible policy key encoded record) ∧
      ∃ e, putEncoded policy store key encoded = (.error (.error (.invalid e)), store)) ∨
    (Misrouted policy key encoded ∧ (∀ record, ¬ Eligible policy key encoded record) ∧
      putEncoded policy store key encoded = (.error (.error .routeContextMismatch), store)) ∨
    ∃ record, Eligible policy key encoded record ∧ ¬ Misrouted policy key encoded ∧
      ((∃ held, store.records[key]? = some held ∧ ¬ rank held < rank record ∧
        putEncoded policy store key encoded =
          (.error (.error (.staleWrite held.context.version record.context.version)), store)) ∨
      (∀ held, store.records[key]? = some held → rank held < rank record) ∧
        putEncoded policy store key encoded = (.ok ⟨record.context.version, record.manifestRevision,
          record.manifestHash, store.records[key]?.isNone⟩, store.replace key record)) := by
  cases decoded : SealedRecord.decode encoded policy with
  | error fault =>
      obtain ⟨e, rfl⟩ : ∃ e, fault = .error e := by
        cases fault with
        | error e => exact ⟨e, rfl⟩
        | panic site => exact absurd decoded (decode_not_panic encoded policy site)
      refine .inl ⟨?_, fun record eligible => ?_, e, ?_⟩
      · rintro ⟨record, reads, -⟩
        rw [decoded] at reads
        cases reads
      · have reads := eligible.decodes
        rw [decoded] at reads
        cases reads
      · simp only [putEncoded, routed, decoded, mapError_error, error_bind, Fault.map]
  | ok record =>
      have only : ∀ other, SealedRecord.decode encoded policy = .ok other → other = record :=
        fun other reads => Except.ok.inj (reads.symm.trans decoded)
      by_cases here : RecordKey.of record = key
      · have straight : ¬ Misrouted policy key encoded := by
          rintro ⟨other, reads, elsewhere⟩
          exact elsewhere (only other reads ▸ here)
        have found : routed policy key encoded = .ok record := routed_eq_ok.mpr ⟨decoded, here⟩
        cases checked : record.validate policy with
        | error e =>
            refine .inl ⟨straight, fun other eligible => ?_, e, ?_⟩
            · have valid := eligible.validates
              rw [only other eligible.decodes, checked] at valid
              cases valid
            · simp only [putEncoded, found, StoreInner.put, checked, mapError_error]
        | ok _ =>
            refine .inr (.inr ⟨record, ⟨decoded, checked, here⟩, straight, ?_⟩)
            subst here
            simp only [putEncoded, found, StoreInner.put, checked]
            rcases commit_verdict store record with ⟨held, found, behind, refused⟩ | ⟨ahead, done⟩
            · exact .inl ⟨held, found, behind, by rw [refused]; rfl⟩
            · exact .inr ⟨ahead, by rw [done]; rfl⟩
      · refine .inr (.inl ⟨⟨record, decoded, here⟩, fun other eligible => ?_, ?_⟩)
        · exact here (only other eligible.decodes ▸ eligible.routes)
        · have apart : record.context.tenant ≠ key.tenant ∨ record.context.objectId ≠ key.objectId ∨
              record.context.field ≠ key.field := by
            by_contra same
            simp only [not_or, not_not] at same
            obtain ⟨tenant, objectId, field⟩ := same
            exact here (by rw [RecordKey.of, tenant, objectId, field])
          simp only [putEncoded, routed, decoded, mapError_ok, ok_bind, rejectIf_bind_of apart]

end Verdicts

end Blindplane.Relay
