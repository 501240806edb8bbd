/-
# What an origin appends, a peer accepts (`src/mesh/origin_stream.rs`)

The writer hashes and signs the text of a typed payload that it printed and parsed again;
the reader rebuilds the event from the stored row and hashes what it parsed.  Both sort
keys at every depth and features before they print, so they meet in one canonical text,
whatever order the keys and the features came in.
-/
import EideticEngine.ComparisonSort
import EideticEngine.OriginForks
import EideticEngine.OriginWriters

namespace Serde.Json

/-! ## Key order -/

/-- The same value with the entries of objects, at any depth, in another order.  The keys
of an object are distinct. -/
inductive Reordered : Json → Json → Prop where
  | refl (value : Json) : Reordered value value
  | trans {a b c : Json} : Reordered a b → Reordered b c → Reordered a c
  | entries {entries entries' : List (String × Json)} (hnodup : (entries.map Prod.fst).Nodup)
      (hperm : entries'.Perm entries) : Reordered (.object entries) (.object entries')
  | entry {value value' : Json} (before after : List (String × Json)) (key : String) :
      Reordered value value' → Reordered (.object (before ++ (key, value) :: after))
        (.object (before ++ (key, value') :: after))
  | item {value value' : Json} (before after : List Json) :
      Reordered value value' → Reordered (.array (before ++ value :: after))
        (.array (before ++ value' :: after))

theorem sortedEntries_eq_map (entries : List (String × Json)) :
    sortedEntries entries = entries.map fun en => (en.1, en.2.sorted) := by
  induction entries with
  | nil => rfl
  | cons en entries ih =>
    obtain ⟨key, value⟩ := en
    rw [sortedEntries, ih]
    rfl

theorem sortedItems_eq_map (items : List Json) : sortedItems items = items.map sorted := by
  induction items with
  | nil => rfl
  | cons it items ih => rw [sortedItems, ih, List.map_cons]

instance : Std.Total fun a b : String × Json => (compare a.1 b.1).isLE = true where
  total a b := by
    have hswap : compare b.1 a.1 = (compare a.1 b.1).swap := Std.OrientedCmp.eq_swap
    rw [hswap]
    cases compare a.1 b.1 <;> decide

instance : IsTrans (String × Json) fun a b => (compare a.1 b.1).isLE = true where
  trans _ _ _ h h' := Std.TransCmp.isLE_trans h h'

/-- Texts neither of which comes after the other are equal. -/
theorem eq_of_isLE {a b : String} (hab : (compare a b).isLE = true)
    (hba : (compare b a).isLE = true) : a = b := by
  rw [Ordering.isLE_iff_ne_gt] at hab hba
  exact Std.LawfulEqCmp.eq_of_compare (ComparisonSort.eq_of_ne_gt hab hba)

/-- Entries with distinct keys have one sorted order. -/
theorem sortEntries_congr {entries es' : List (String × Json)}
    (hn : (entries.map Prod.fst).Nodup) (hp : es'.Perm entries) :
    sortEntries es' = sortEntries entries := by
  have hs := fun l : List (String × Json) =>
    List.perm_insertionSort (fun a b : String × Json => (compare a.1 b.1).isLE = true) l
  have hp' := (hs es').trans (hp.trans (hs entries).symm)
  refine hp'.eq_of_pairwise ?_ (List.pairwise_insertionSort _ es')
    (List.pairwise_insertionSort _ entries)
  intro a b ha hb hab hba
  exact List.inj_on_of_nodup_map hn (hp.subset ((hs es').subset ha))
    ((hs entries).subset hb) (eq_of_isLE hab hba)

/-- **The order of keys does not show in the sorted value.** -/
theorem Reordered.sorted_eq {a b : Json} (h : Reordered a b) : b.sorted = a.sorted := by
  induction h with
  | refl value => rfl
  | trans _ _ ih ih' => exact ih'.trans ih
  | @entries entries es' hn hp =>
    rw [sorted, sorted, sortedEntries_eq_map, sortedEntries_eq_map]
    refine congrArg Json.object (sortEntries_congr ?_ (hp.map _))
    rw [List.map_map]
    exact hn
  | entry be after key _ ih =>
    rw [sorted, sorted, sortedEntries_eq_map, sortedEntries_eq_map]
    simp only [List.map_append, List.map_cons, ih]
  | item be after _ ih =>
    rw [sorted, sorted, sortedItems_eq_map, sortedItems_eq_map]
    simp only [List.map_append, List.map_cons, ih]

/-- Sorting by the key and then changing the values is changing them and then sorting. -/
theorem sortEntries_map (f : Json → Json) (entries : List (String × Json)) :
    sortEntries (entries.map fun en => (en.1, f en.2))
      = (sortEntries entries).map fun en => (en.1, f en.2) := by
  have hm := List.map_insertionSort (fun a b : String × Json => (compare a.1 b.1).isLE = true)
    (fun a b : String × Json => (compare a.1 b.1).isLE = true)
    (fun en => (en.1, f en.2)) entries fun _ _ _ _ => Iff.rfl
  exact hm.symm

mutual

/-- **Sorting a sorted value changes nothing.** -/
theorem sorted_sorted : ∀ value : Json, value.sorted.sorted = value.sorted
  | .null => rfl
  | .bool _ => rfl
  | .number _ => rfl
  | .string _ => rfl
  | .array items => by
    rw [sorted, sorted, sortedItems_sortedItems items]
  | .object entries => by
    -- the values are sorted already, and so is the list of entries
    have hv := sortedEntries_sortedEntries entries
    rw [sorted, sorted, sortedEntries_eq_map (sortEntries _), ← sortEntries_map,
      ← sortedEntries_eq_map, hv]
    exact congrArg Json.object
      (List.pairwise_insertionSort _ (sortedEntries entries)).insertionSort_eq

theorem sortedEntries_sortedEntries : ∀ entries : List (String × Json),
    sortedEntries (sortedEntries entries) = sortedEntries entries
  | [] => rfl
  | (key, value) :: entries => by
    rw [sortedEntries, sortedEntries, sorted_sorted value, sortedEntries_sortedEntries entries]

theorem sortedItems_sortedItems : ∀ items : List Json,
    sortedItems (sortedItems items) = sortedItems items
  | [] => rfl
  | item :: items => by
    rw [sortedItems, sortedItems, sorted_sorted item, sortedItems_sortedItems items]

end

theorem asStrings_strings (ts : List String) : (strings ts).asStrings = some ts := by
  change (ts.map Json.string).mapM asStr = some ts
  induction ts with
  | nil => rfl
  | cons text ts ih =>
    rw [List.map_cons, List.mapM_cons, ih]
    rfl

end Serde.Json

namespace OriginStream

open Serde

/-! ## Features -/

instance totalLe : Std.Total fun a b : String => (compare a b).isLE = true where
  total a b := by
    have hswap : compare b a = (compare a b).swap := Std.OrientedCmp.eq_swap
    rw [hswap]
    cases compare a b <;> decide

instance transLe : IsTrans String fun a b => (compare a b).isLE = true where
  trans _ _ _ h h' := Std.TransCmp.isLE_trans h h'

instance antisymmLe : Std.Antisymm fun a b : String => (compare a b).isLE = true where
  antisymm _ _ h h' := Json.eq_of_isLE h h'

theorem mem_canonicalFeatures {f : String} {features : List String} :
    f ∈ canonicalFeatures features ↔ f ∈ features :=
  ComparisonSort.mem_destutter_insertionSort

/-- **The order and the repetition of features do not show in the canonical ones.** -/
theorem canonicalFeatures_congr {features features' : List String}
    (h : ∀ f, f ∈ features' ↔ f ∈ features) :
    canonicalFeatures features' = canonicalFeatures features :=
  ComparisonSort.destutter_insertionSort_eq_iff.mpr h

theorem canonicalFeatures_idem (features : List String) :
    canonicalFeatures (canonicalFeatures features) = canonicalFeatures features :=
  canonicalFeatures_congr fun _ => mem_canonicalFeatures

/-- The canonical text of a preimage depends on the sorted payload only. -/
theorem canonicalJsonString_preimageValue (c : Codec) (teamId nodeId : String)
    (skg seq : ℕ) (peh : Option String) (ps : String)
    {p p' : Json} (h : p'.sorted = p.sorted) (features : List String)
    (pa : String) :
    canonicalJsonString c (preimageValue teamId nodeId skg seq peh ps p' features pa)
      = canonicalJsonString c (preimageValue teamId nodeId skg seq peh ps p features pa) := by
  unfold canonicalJsonString preimageValue
  rw [Json.sorted, Json.sorted, Json.sortedEntries_eq_map, Json.sortedEntries_eq_map]
  simp only [List.map_cons, h]

/-! ## A stored row at a peer -/

/-- Parsing the printed text of a value gives the value back. -/
def Faithful (json : SerdeJson) (value : Json) : Prop :=
  ∀ text, json.print value = .ok text → json.parse text = .ok value

/-- What a request prints is parsed faithfully: the sorted payload and the features. -/
structure FaithfulFor (json : SerdeJson) (request : OriginAppendRequest) : Prop where
  payload : Faithful json request.payload.toValue.sorted
  features : Faithful json (.strings (canonicalFeatures request.requiredFeatures))

/-- `from_value` of the closed type of a payload accepts it. -/
def PayloadTypes.Accepts (types : PayloadTypes) : OriginEventPayload → Prop
  | .memory payload =>
    types.memory (OriginEventPayload.memory payload).toValue.sorted = .ok ()
  | .manifest payload =>
    types.manifest (OriginEventPayload.manifest payload).toValue.sorted = .ok ()

/-- A node of another origin, with a verifier that matches the signer and every required
feature. -/
structure PeerFor (codec : Codec) (signer : OriginSigner) (request : OriginAppendRequest)
    (receiver : Receiver) : Prop where
  codec_eq : receiver.codec = codec
  other_origin : request.originNodeId ≠ receiver.ownOriginNodeId
  verifies : ∀ bytes, receiver.verify request.originNodeId signer.signingKeyGeneration
    "ee.mesh.origin_event.signature.v1" bytes
    (signer.sign "ee.mesh.origin_event.signature.v1" bytes) = true
  supports : ∀ feature ∈ request.requiredFeatures, feature ∈ receiver.supportedFeatures
  accepts : receiver.types.Accepts request.payload

/-- What is hashed and signed for a request: its preimage with the sorted payload. -/
def requestPreimage (signer : OriginSigner) (request : OriginAppendRequest)
    (tip : Option (ℕ × String)) : Json :=
  preimageValue request.teamId request.originNodeId signer.signingKeyGeneration (nextAfter tip).1
    (nextAfter tip).2 request.payload.schema request.payload.toValue.sorted
    (canonicalFeatures request.requiredFeatures) request.producedAt

/-- What a built row holds: texts that parse to the payload and the features, and the hash,
the identifier and the signature of the canonical text. -/
structure BuiltFrom (codec : Codec) (signer : OriginSigner) (request : OriginAppendRequest)
    (tip : Option (ℕ × String)) (canonical : String) (input : CreateMeshOriginEventInput) :
    Prop where
  canonical_eq : canonicalJsonString codec (requestPreimage signer request tip) = .ok canonical
  payload_eq : codec.json.parse input.payloadJson = .ok request.payload.toValue.sorted
  features_eq : codec.json.parse input.requiredFeaturesJson
    = .ok (.strings (canonicalFeatures request.requiredFeatures))
  eventHash_eq : input.eventHash = eventHashOf codec canonical
  eventId_eq : input.eventId = eventIdOf codec (eventHashOf codec canonical)
  signature_eq : input.signature
    = signer.sign "ee.mesh.origin_event.signature.v1" (RustText.asBytes canonical)
  team_eq : input.teamId = request.teamId
  origin_eq : input.originNodeId = request.originNodeId
  generation_eq : input.signingKeyGeneration = signer.signingKeyGeneration
  next_eq : (input.seq, input.prevEventHash) = nextAfter tip
  schema_eq : input.payloadSchema = request.payload.schema
  producedAt_eq : input.producedAt = request.producedAt

/-- The writer's route, from the typed payload over its text back to a value, ends in the
sorted payload. -/
theorem buildInput_builtFrom {codec : Codec} {s : OriginSigner}
    {r : OriginAppendRequest} {tip : Option (ℕ × String)}
    {inp : CreateMeshOriginEventInput} (hf : FaithfulFor codec.json r)
    (h : buildInput codec s r tip = .ok inp) :
    ∃ c, BuiltFrom codec s r tip c inp := by
  unfold buildInput at h
  simp only at h
  obtain ⟨pj, hpa, h⟩ := Except.bind_eq_ok_iff.mp h
  obtain ⟨fj, hfe, h⟩ := Except.bind_eq_ok_iff.mp h
  obtain ⟨p, hp, h⟩ := Except.bind_eq_ok_iff.mp h
  obtain ⟨c, hc, hi⟩ := Except.bind_eq_ok_iff.mp h
  have hpar := hf.payload pj (Except.mapError_eq_ok_iff.mp hpa)
  have hfea := hf.features fj (Except.mapError_eq_ok_iff.mp hfe)
  rw [Except.mapError_eq_ok_iff, hpar] at hp
  cases hp
  cases hi
  exact ⟨c, hc, hpar, hfea, rfl, rfl, rfl, rfl, rfl, rfl, rfl, rfl, rfl⟩

/-- The reader's route: the row parses to the sorted payload and the features. -/
theorem BuiltFrom.inbound {codec : Codec} {s : OriginSigner} {r : OriginAppendRequest}
    {tip : Option (ℕ × String)} {c : String} {inp : CreateMeshOriginEventInput}
    (h : BuiltFrom codec s r tip c inp)
    (hg : s.signingKeyGeneration ≤ i64Max) (hs : (nextAfter tip).1 ≤ i64Max) :
    inboundFromStored codec.json inp.row = some {
      schema := "ee.mesh.origin_event.v1"
      eventId := eventIdOf codec (eventHashOf codec c)
      teamId := r.teamId
      originNodeId := r.originNodeId
      signingKeyGeneration := s.signingKeyGeneration
      seq := (nextAfter tip).1
      prevEventHash := (nextAfter tip).2
      eventHash := eventHashOf codec c
      signature := s.sign "ee.mesh.origin_event.signature.v1" (RustText.asBytes c)
      payloadSchema := r.payload.schema
      payload := r.payload.toValue.sorted
      requiredFeatures := canonicalFeatures r.requiredFeatures
      producedAt := r.producedAt } := by
  have hn : inp.seq = (nextAfter tip).1 := congrArg Prod.fst h.next_eq
  have hp : inp.prevEventHash = (nextAfter tip).2 := congrArg Prod.snd h.next_eq
  have hc : clampI64 inp.signingKeyGeneration = s.signingKeyGeneration := by
    rw [h.generation_eq]
    exact Nat.min_eq_left hg
  have hcl : clampI64 inp.seq = (nextAfter tip).1 := by
    rw [hn]
    exact Nat.min_eq_left hs
  simp only [inboundFromStored, CreateMeshOriginEventInput.row, h.payload_eq, h.features_eq,
    Except.toOption, Option.bind_some, Option.bind_eq_bind, Json.asStrings_strings,
    Option.getD_some, hc, hcl, Option.pure_def, h.eventId_eq, h.team_eq, h.origin_eq, hp,
    h.eventHash_eq, h.signature_eq, h.schema_eq, h.producedAt_eq]

/-- The payload check passes an accepted payload. -/
theorem classifyPayload_eq_applied {ts : PayloadTypes} {p : OriginEventPayload}
    (ha : ts.Accepts p) {event : InboundOriginEvent}
    (hs : event.payloadSchema = p.schema)
    (hp : event.payload = p.toValue.sorted) :
    classifyPayload ts event = .applied := by
  unfold classifyPayload
  rw [hs, hp]
  cases p with
  | memory p =>
    have hok : ts.memory (OriginEventPayload.memory p).toValue.sorted = .ok () := ha
    simp [OriginEventPayload.schema, hok]
  | manifest p =>
    have hok : ts.manifest (OriginEventPayload.manifest p).toValue.sorted = .ok () := ha
    simp [OriginEventPayload.schema, hok]

/-- Requests with the same fields up to the order of keys in the payload and the order and
the repetition of features. -/
structure SameRequest (request request' : OriginAppendRequest) : Prop where
  team_eq : request'.teamId = request.teamId
  origin_eq : request'.originNodeId = request.originNodeId
  schema_eq : request'.payload.schema = request.payload.schema
  payload : Json.Reordered request.payload.toValue request'.payload.toValue
  features : ∀ feature, feature ∈ request'.requiredFeatures ↔ feature ∈ request.requiredFeatures
  producedAt_eq : request'.producedAt = request.producedAt
  nonce_eq : request'.bodyNonce = request.bodyNonce

/-- The writer builds one row for such requests. -/
theorem SameRequest.buildInput_eq {r r' : OriginAppendRequest}
    (h : SameRequest r r') (c : Codec) (s : OriginSigner)
    (tip : Option (ℕ × String)) :
    buildInput c s r' tip = buildInput c s r tip := by
  have hp : canonicalJsonString c r'.payload.toValue = canonicalJsonString c r.payload.toValue := by
    unfold canonicalJsonString
    rw [h.payload.sorted_eq]
  unfold buildInput
  rw [hp, canonicalFeatures_congr h.features, h.team_eq, h.origin_eq, h.schema_eq,
    h.producedAt_eq, h.nonce_eq]

/-- The row that a successful append stored is the one that it built on the tip. -/
theorem appendOriginEvent_ok {c : Codec} {faults : EngineFaults}
    {ts ts' : OriginTables} {s : OriginSigner} {r : OriginAppendRequest}
    {a : AppendedOriginEvent}
    (h : appendOriginEvent c faults ts s r = (ts', .ok a)) :
    ∃ inp, buildInput c s r (ts.meshOriginTip r.teamId r.originNodeId) = .ok inp ∧
      ts'.events = ts.events ++ [inp.row] := by
  unfold appendOriginEvent at h
  split at h
  · cases h
  rename_i inp hb
  refine ⟨inp, hb, ?_⟩
  have ht := writeBuilt_tables faults ts inp
  rw [h] at ht
  unfold writeBuilt at h
  rcases appendMeshOriginEvent_cases faults ts inp with ⟨e, he⟩ | ⟨-, -, ns, hok⟩
  · rw [he] at h
    cases e <;> cases h
  · rw [hok] at ht
    exact congrArg OriginTables.events ht

/-- **What an origin appends, a peer accepts.** -/
theorem append_accepted_by_peer {codec : Codec} {faults : EngineFaults}
    {tables tables' : OriginTables} {signer : OriginSigner} {request : OriginAppendRequest}
    {appended : AppendedOriginEvent}
    (happend : appendOriginEvent codec faults tables signer request = (tables', .ok appended))
    (hfaithful : FaithfulFor codec.json request)
    (hgeneration : signer.signingKeyGeneration ≤ i64Max)
    (hseq : (nextAfter (tables.meshOriginTip request.teamId request.originNodeId)).1 ≤ i64Max) :
    ∃ row inbound canonical, tables'.events = tables.events ++ [row] ∧
      inboundFromStored codec.json row = some inbound ∧
      (∀ receiver receiverTables, PeerFor codec signer request receiver →
        (∀ hash, recordedHash receiverTables inbound.place = some hash → hash = inbound.eventHash) →
        classifyInbound receiver (.ok receiverTables) inbound = .ok .applied) ∧
      row.eventHash = eventHashOf codec canonical ∧
      row.signature = signer.sign "ee.mesh.origin_event.signature.v1" (RustText.asBytes canonical) ∧
      (∀ payload features, Json.Reordered request.payload.toValue payload ∨
          Json.Reordered inbound.payload payload →
        (∀ feature, feature ∈ features ↔ feature ∈ request.requiredFeatures) →
        canonicalOf codec { inbound with payload := payload, requiredFeatures := features }
          = .ok canonical) ∧
      ∀ request', SameRequest request request' →
        (appendOriginEvent codec faults tables signer request') = (tables', .ok appended) := by
  set tip := tables.meshOriginTip request.teamId request.originNodeId with htip
  obtain ⟨inp, hi, he⟩ := appendOriginEvent_ok happend
  obtain ⟨canonical, hb⟩ := buildInput_builtFrom hfaithful hi
  refine ⟨inp.row, _, canonical, he, hb.inbound hgeneration hseq, ?_,
    hb.eventHash_eq, hb.signature_eq, ?_, ?_⟩
  · intro receiver receiverTables hpe hr
    obtain ⟨rfl, ho, hv, hsu, ha⟩ := hpe
    rw [classifyInbound_eq_applied_iff]
    constructor
    · refine ⟨rfl, ho, ⟨canonical, ?_, ?_⟩, ?_, classifyPayload_eq_applied ha rfl rfl⟩
      · unfold canonicalOf
        rw [canonicalFeatures_idem]
        exact hb.canonical_eq
      · simp [integrityFailure, hv]
      · intro feature hf
        rw [mem_canonicalFeatures, mem_canonicalFeatures] at hf
        exact hsu feature hf
    · rw [← Bool.not_eq_true, forkEvidence_iff]
      rintro ⟨hash, hh, hne⟩
      exact hne (hr hash hh)
  · intro payload features hp hfe
    -- the sorted payload is sorted already, so both orders lead to it
    have hso : payload.sorted = request.payload.toValue.sorted.sorted := by
      rcases hp with hp | hp
      · rw [Json.sorted_sorted]
        exact hp.sorted_eq
      · exact hp.sorted_eq
    unfold canonicalOf
    rw [canonicalJsonString_preimageValue _ _ _ _ _ _ _ hso, canonicalFeatures_congr hfe]
    exact hb.canonical_eq
  · intro request' hs
    unfold appendOriginEvent at happend ⊢
    rw [hs.team_eq, hs.origin_eq, hs.buildInput_eq]
    exact happend

namespace Writers

/-- The sample codec, with a parser for the two texts that the sample request prints. -/
def samplePeerCodec : Codec where
  json :=
    { print := fun value => .ok value.compact
      parse := fun text =>
        if text = "[]" then .ok (.array []) else .ok sampleRequest.payload.toValue.sorted }
  blake3Hex := sampleCodec.blake3Hex

/-- A peer of the sample origin. -/
def samplePeer : Receiver where
  codec := samplePeerCodec
  types := ⟨fun _ => .error "missing field", fun _ => .ok ()⟩
  verify := fun _ _ domain _ signature => signature = "ed25519:" ++ domain
  ownOriginNodeId := "node_b1"
  supportedFeatures := []

/-- The first event of the sample origin is applied at its peer. -/
theorem sample_append_applied :
    ∃ row inbound, (appendOriginEvent samplePeerCodec .none .empty sampleSigner
        sampleRequest).1.events = [row] ∧
      inboundFromStored samplePeerCodec.json row = some inbound ∧
      classifyInbound samplePeer (.ok .empty) inbound = .ok .applied := by
  have hr : (appendOriginEvent samplePeerCodec .none .empty sampleSigner
      sampleRequest).2.toOption.isSome = true := by decide +kernel
  cases ha : appendOriginEvent samplePeerCodec .none .empty sampleSigner sampleRequest with
  | mk ts r =>
    rw [ha] at hr
    cases r with
    | error e => cases hr
    | ok a =>
      have hf : FaithfulFor samplePeerCodec.json sampleRequest := by
        constructor
        · intro text ht
          cases ht
          rfl
        · intro text ht
          cases ht
          rfl
      have hp : PeerFor samplePeerCodec sampleSigner sampleRequest samplePeer :=
        ⟨rfl, by decide, fun _ => by simp [samplePeer, sampleSigner], by simp [sampleRequest], rfl⟩
      obtain ⟨row, inbound, -, he, hi, hap, -⟩ :=
        append_accepted_by_peer ha hf (by decide) (by decide)
      exact ⟨row, inbound, he, hi, hap samplePeer .empty hp fun h hh => by cases hh⟩

end Writers

end OriginStream
