import Quiver.Cluster.Ranking

/-!
The descriptors that collections have on the shards. A create through a router carries no `binary`
and is rejected with filterable fields, and the coordinator's copy of a listed collection carries
neither `binary` nor `multivector`.
-/

namespace Quiver.Cluster

open Quiver.Core Json
open Std (ExtTreeMap)

variable {admits : Descriptor → Bool} {f f' start t : Fleet} {event : FleetEvent} {name : String} {d : Descriptor}

theorem withoutBinary_eq_iff : withoutBinary d = d ↔ d.index.binary = false := by
  constructor
  · intro same
    rw [← same]
    rfl
  · intro plain
    obtain ⟨dim, dtype, metric, ⟨kind, pqSubspaces, binary⟩, filterable, multivector, encryption⟩ := d
    cases plain
    rfl

/-! ## One create -/

/-- A create through a router whose shards all answer leaves every shard with the descriptor exactly if it
asks for no binary quantization and no filterable fields. -/
theorem created_descriptor_iff {served served' : Served} {r : Except RouterError Unit} (requestable : Requestable d)
    (distinct : (served.router.map.shards.map Shard.id).Nodup) (nonempty : served.router.map.shards ≠ [])
    (absent : ∀ s ∈ served.router.map.shards, name ∉ served.cats s.id) (admitted : admits (withoutBinary d) = true)
    (called : served.call admits allAnswer (.create name d requestable) = (served', r)) :
    (∀ s ∈ served.router.map.shards, (served'.cats s.id)[name]? = some d) ↔
      d.index.binary = false ∧ d.filterable = [] := by
  obtain ⟨first, isShard⟩ := List.exists_mem_of_ne_nil _ nonempty
  by_cases plain : d.filterable = []
  · have ok : r = .ok () := by
      have retried := (Served.retries admits distinct (.create name d requestable)).mpr fun s member => by
        rw [CollectionCall.write, handle_create requestable]
        simp [plain, admitted, absent s member]
      exact (congrArg Prod.snd called).symm.trans retried
    subst ok
    have stored : ∀ s ∈ served.router.map.shards, (served'.cats s.id)[name]? = some (withoutBinary d) := by
      intro s member
      obtain ⟨isCat, ok⟩ := Served.call_ok distinct called s member
      rw [isCat, CollectionCall.write, (handle_create_ok requestable ok).2.2.2]
      simp
    constructor
    · intro exact
      have same := (stored first isShard).symm.trans (exact first isShard)
      exact ⟨withoutBinary_eq_iff.mp (Option.some.inj same), plain⟩
    · rintro ⟨noBinary, _⟩ s member
      rw [stored s member, withoutBinary_eq_iff.mpr noBinary]
  · have rejected : ∀ cat, (CollectionCall.create name d requestable).write.handle admits cat = (cat, .error 422) := by
      intro cat
      rw [CollectionCall.write, handle_create requestable, if_pos plain]
    refine ⟨fun exact => ?_, fun fits => absurd fits.2 plain⟩
    have same : served'.cats first.id = served.cats first.id := by
      obtain same | done := Served.call_reached called first.id
      · exact same
      · rw [done]
        exact congrArg Prod.fst (rejected _)
    have held := exact first isShard
    rw [same, ExtTreeMap.getElem?_eq_none (absent first isShard)] at held
    contradiction

/-- What the coordinator creates on another shard is what was listed exactly if that has no binary
quantization and no multi-vectors. -/
theorem ensured_descriptor_iff {cat : Catalog} (requestable : Requestable d) (absent : name ∉ cat)
    (admitted : admits { withoutBinary d with multivector := false } = true) (count : Nat) (indexReady answersHas : Bool) :
    ((ensureCollection admits (collectionDto name d count indexReady) answersHas cat).1)[name]? = some d ↔
      d.index.binary = false ∧ d.multivector = false := by
  have isName : (((collectionDto name d count indexReady).get "name").bind asString).getD "" = name := by
    simp [collectionDto, Value.get, asString]
  have stored : ((ensureCollection admits (collectionDto name d count indexReady) answersHas cat).1)[name]? =
      some { withoutBinary d with multivector := false } := by
    rw [ensureCollection, isName, if_neg (by simp [absent]), CollectionWrite.handle, parse_ensureBody requestable]
    simp [admitted, absent]
  rw [stored, Option.some.injEq]
  constructor
  · intro same
    rw [← same]
    exact ⟨rfl, rfl⟩
  · rintro ⟨noBinary, single⟩
    rw [withoutBinary_eq_iff.mpr noBinary]
    obtain ⟨dim, dtype, metric, index, filterable, multivector, encryption⟩ := d
    cases single
    rfl

/-! ## Runs -/

/-- What shards hold: descriptors without binary quantization, the same on all of them. -/
structure Agreeing (f : Fleet) : Prop where
  requestable : ∀ {s : ShardId} {name : String} {d : Descriptor}, (f.cats s)[name]? = some d → Requestable d
  noBinary : ∀ {s : ShardId} {name : String} {d : Descriptor}, (f.cats s)[name]? = some d → d.index.binary = false
  same : ∀ {s s' : ShardId} {name : String} {d d' : Descriptor}, (f.cats s)[name]? = some d →
    (f.cats s')[name]? = some d' → d = d'

/-- A collection is created only if no shard has another one of its name. -/
def OneIncarnation (f : Fleet) : FleetEvent → Prop
  | .call _ call _ => ∀ name e requestable, call = .create name e requestable →
      ∀ (s : ShardId) (d : Descriptor), (f.cats s)[name]? = some d → d = withoutBinary e
  | _ => True

theorem Agreeing.step (agreeing : Agreeing f) (one : OneIncarnation f event) (stepped : Fleet.Step admits f event f') :
    Agreeing f' := by
  cases stepped with
  | @call i call contact served r called =>
    have found : ∀ {s : ShardId} {name : String} {d : Descriptor}, (served.cats s)[name]? = some d →
        (f.cats s)[name]? = some d ∨ ∃ (e : Descriptor) (requestable : Requestable e),
          call = .create name e requestable ∧ d = withoutBinary e := fun isThere => Served.call_found called isThere
    constructor
    · intro s name d isThere
      obtain old | ⟨e, requestable, _, rfl⟩ := found isThere
      · exact agreeing.requestable old
      · exact requestable.withoutBinary
    · intro s name d isThere
      obtain old | ⟨e, requestable, _, rfl⟩ := found isThere
      · exact agreeing.noBinary old
      · rfl
    · intro s s' name d d' isThere isThere'
      obtain old | ⟨e, requestable, isCall, rfl⟩ := found isThere
      · obtain old' | ⟨e', requestable', isCall', rfl⟩ := found isThere'
        · exact agreeing.same old old'
        · exact one name e' requestable' isCall' s d old
      · obtain old' | ⟨e', requestable', isCall', rfl⟩ := found isThere'
        · exact (one name e requestable isCall s' d' old').symm
        · rw [isCall] at isCall'
          cases isCall'
          rfl
  | search learned | refresh map => exact ⟨agreeing.requestable, agreeing.noBinary, agreeing.same⟩
  | @ensure donor target name d count indexReady answersHas listed single =>
    -- The copy of a listed collection is that collection.
    have copied : { withoutBinary d with multivector := false } = d := by
      rw [withoutBinary_eq_iff.mpr (agreeing.noBinary listed)]
      have isSingle := single name d listed
      obtain ⟨dim, dtype, metric, index, filterable, multivector, encryption⟩ := d
      cases isSingle
      rfl
    have was : ∀ {s : ShardId} {other : String} {e : Descriptor}, (Function.update f.cats target
        (ensureCollection admits (collectionDto name d count indexReady) answersHas (f.cats target)).1 s)[other]? = some e →
        ∃ s', (f.cats s')[other]? = some e := by
      intro s other e isThere
      by_cases here : s = target
      · subst here
        rw [Function.update_self] at isThere
        obtain old | ⟨rfl, rfl⟩ := ensureCollection_found (agreeing.requestable listed) rfl isThere
        · exact ⟨s, old⟩
        · exact ⟨donor, copied.symm ▸ listed⟩
      · rw [Function.update_of_ne here] at isThere
        exact ⟨s, isThere⟩
    refine ⟨fun isThere => ?_, fun isThere => ?_, fun isThere isThere' => ?_⟩
    · obtain ⟨_, old⟩ := was isThere
      exact agreeing.requestable old
    · obtain ⟨_, old⟩ := was isThere
      exact agreeing.noBinary old
    · obtain ⟨_, old⟩ := was isThere
      obtain ⟨_, old'⟩ := was isThere'
      exact agreeing.same old old'

/-- Shards that hold a collection agree on its descriptor as long as none is created while a shard still
holds another one of its name. A create through a router leaves every shard with what was asked for,
and the coordinator's copy is what the other shard lists, exactly without the parts that the requests
do not carry. -/
theorem descriptors_carried_iff {events : List FleetEvent} (empty : ∀ s, start.cats s = ∅)
    (run : Run.Reaches (Run.Guarded OneIncarnation (Fleet.Step admits)) start events t) :
    (∀ (s s' : ShardId) (name : String) (d d' : Descriptor), (t.cats s)[name]? = some d →
      (t.cats s')[name]? = some d' → d = d') ∧
    (∀ (served served' : Served) (r : Except RouterError Unit) (name : String) (d : Descriptor)
      (requestable : Requestable d), (served.router.map.shards.map Shard.id).Nodup → served.router.map.shards ≠ [] →
      (∀ s ∈ served.router.map.shards, name ∉ served.cats s.id) → admits (withoutBinary d) = true →
      served.call admits allAnswer (.create name d requestable) = (served', r) →
      ((∀ s ∈ served.router.map.shards, (served'.cats s.id)[name]? = some d) ↔
        d.index.binary = false ∧ d.filterable = [])) ∧
    ∀ (cat : Catalog) (name : String) (d : Descriptor) (count : Nat) (indexReady answersHas : Bool), Requestable d →
      name ∉ cat → admits { withoutBinary d with multivector := false } = true →
      (((ensureCollection admits (collectionDto name d count indexReady) answersHas cat).1)[name]? = some d ↔
        d.index.binary = false ∧ d.multivector = false) := by
  have agreeing : Agreeing t := by
    refine run.invariant (fun _ f => Agreeing f) ?_ fun agreeing stepped => agreeing.step stepped.1 stepped.2
    exact ⟨fun found => by simp [empty] at found, fun found => by simp [empty] at found,
      fun found => by simp [empty] at found⟩
  refine ⟨fun _ _ _ _ _ found found' => agreeing.same found found', ?_, ?_⟩
  · intro served served' r name d requestable distinct nonempty absent admitted called
    exact created_descriptor_iff requestable distinct nonempty absent admitted called
  · intro cat name d count indexReady answersHas requestable absent admitted
    exact ensured_descriptor_iff requestable absent admitted count indexReady answersHas

def quantized : Descriptor := { dim := 8, metric := .cosine, index := { kind := .ivf, pqSubspaces := some 4 } }

def createQuantized : CollectionCall := .create "c" quantized ⟨by decide, by decide⟩

/-- A quantized collection reaches both shards, and a copy of it is the same. -/
theorem descriptors_carried_iff_quantized :
    (∀ s ∈ emptyPair.router.map.shards,
      ((emptyPair.call (fun _ => true) allAnswer createQuantized).1.cats s.id)["c"]? = some quantized) ∧
    ((ensureCollection (fun _ => true) (collectionDto "c" quantized 0 true) true ∅).1)["c"]? = some quantized := by
  have one : OneIncarnation freshFleet (.call 0 createQuantized allAnswer) := fun _ _ _ _ s d found => by
    simp [freshFleet] at found
  have created : Run.Guarded OneIncarnation (Fleet.Step fun _ => true) freshFleet (.call 0 createQuantized allAnswer) _ :=
    ⟨one, .call rfl⟩
  have carried := descriptors_carried_iff (fun _ => rfl) (Run.Reaches.refl.next created)
  refine ⟨?_, ?_⟩
  · exact (carried.2.1 emptyPair _ _ "c" quantized ⟨by decide, by decide⟩ (by decide) (by decide) (by simp [emptyPair]) rfl
      rfl).mpr ⟨rfl, rfl⟩
  · exact (carried.2.2 ∅ "c" quantized 0 true true ⟨by decide, by decide⟩ (by simp) rfl).mpr ⟨rfl, rfl⟩

def binaryDisk : Descriptor := { dim := 2, metric := .l2, index := { kind := .diskVamana, binary := true } }

def tagged : Descriptor := { dim := 2, metric := .l2, filterable := [⟨"tag", .keyword⟩] }

def manyVectors : Descriptor := { dim := 2, metric := .l2, multivector := true }

/-- A router's create loses `binary` and is rejected for a filterable field; the coordinator's copy loses
`multivector`. -/
theorem descriptor_not_carried :
    parseCreate (routerBody "c" binaryDisk) = some ("c", withoutBinary binaryDisk) ∧
    (emptyPair.call (fun _ => true) allAnswer (.create "c" tagged ⟨by decide, by decide⟩)).2 = .error (.rejected 422) ∧
    ((ensureCollection (fun _ => true) (collectionDto "c" manyVectors 0 true) true ∅).1)["c"]? =
      some { manyVectors with multivector := false } := by
  refine ⟨rfl, rfl, by decide +kernel⟩

end Quiver.Cluster
