import Quiver.Core.Catalog
import Quiver.Core.Sec
import Quiver.Query.Filter

/-!
The filter planner. It narrows a filter to a set of candidate ids through the secondary indexes:
a conjunction intersects what its indexable parts allow, a disjunction joins them if all are
indexable, and everything else is left unconstrained.
-/

namespace Quiver.Embed

open Quiver.Core (CollectionState CoreError FieldType FilterableField Parse Record SecPredicate SecValue
  encodeFieldValue encodeSecValue fieldKey keyMatches payloadMatches)
open Json (Value Number fieldValue)
open Query
open Std (ExtTreeMap)
open Option (any_eq_true any_some bind_eq_some_iff bind_some)

def fieldType (filterable : List FilterableField) (field : String) : Option FieldType :=
  (filterable.find? fun f => f.path == field).map (·.fieldType)

/-- A filter value in the field's type, `none` on a mismatch. -/
def secValue : FieldType → Value → Option SecValue
  | .keyword, .string s => some (.keyword s)
  | .numeric, .number n => some (.numeric n.asF64)
  | _, _ => none

def oneSidedRange (field : String) (fieldType : FieldType) (value : Value) (isLower inclusive : Bool) :
    Option SecPredicate :=
  (secValue fieldType value).map fun v =>
    if isLower then .range field (some v) none inclusive false else .range field none (some v) false inclusive

/-- The index predicate of a leaf on a declared field. -/
def leafPredicate (filterable : List FilterableField) : Leaf → Option SecPredicate
  | .eq field value => do return .eq field (← secValue (← fieldType filterable field) value)
  | .isIn field values => do
    let ft ← fieldType filterable field
    return .isIn field (← values.mapM (secValue ft))
  | .lt field value => do oneSidedRange field (← fieldType filterable field) value false false
  | .lte field value => do oneSidedRange field (← fieldType filterable field) value false true
  | .gt field value => do oneSidedRange field (← fieldType filterable field) value true false
  | .gte field value => do oneSidedRange field (← fieldType filterable field) value true true
  | .ne _ _ | .isPresent _ => none

section Plan

variable (parse : Parse) (c : CollectionState)

def leafCandidates (leaf : Leaf) : Except CoreError (Option (Finset String)) :=
  match leafPredicate c.descriptor.filterable leaf with
  | none => .ok none
  | some predicate => do return some (← c.matchingIds parse predicate).toFinset

def narrow (acc : Option (Finset String)) (set : Finset String) : Finset String :=
  match acc with
  | some existing => existing ∩ set
  | none => set

mutual

/-- The ids that may match, `none` for all. -/
def candidateIds : Filter → Except CoreError (Option (Finset String))
  | .and subs => candidatesAnd subs none
  | .or subs => candidatesOr subs ∅
  | .not _ => .ok none
  | .leaf leaf => leafCandidates parse c leaf

def candidatesAnd : List Filter → Option (Finset String) → Except CoreError (Option (Finset String))
  | [], acc => .ok acc
  | sub :: subs, acc => do
    match ← candidateIds sub with
    | none => candidatesAnd subs acc
    | some set => candidatesAnd subs (some (narrow acc set))

def candidatesOr : List Filter → Finset String → Except CoreError (Option (Finset String))
  | [], acc => .ok (some acc)
  | sub :: subs, acc => do
    match ← candidateIds sub with
    | some set => candidatesOr subs (acc ∪ set)
    | none => return none

end

end Plan

section Rounded

variable (filterable : List FilterableField) (payload : Value)

mutual

/-- The filter with the numbers of its indexed leaves compared as doubles, and every part the
indexes do not constrain taken to hold. -/
def rounded : Filter → Bool
  | .and subs => roundedAll subs
  | .or subs => roundedAny subs
  | .not _ => true
  | .leaf leaf => (leafPredicate filterable leaf).isNone || leaf.matchesWith Number.doubleCmp payload

def roundedAll : List Filter → Bool
  | [] => true
  | sub :: subs => rounded sub && roundedAll subs

def roundedAny : List Filter → Bool
  | [] => false
  | sub :: subs => rounded sub || roundedAny subs

end

end Rounded

section Leaves

variable {ft : FieldType} {value : Value} {v : SecValue}

theorem secValue_cases (encodes : secValue ft value = some v) :
    (∃ s, ft = .keyword ∧ value = .string s ∧ v = .keyword s) ∨
      ∃ n, ft = .numeric ∧ value = .number n ∧ v = .numeric n.asF64 := by
  cases ft with
  | keyword =>
    cases value with
    | string s => exact .inl ⟨s, rfl, rfl, (Option.some.inj encodes).symm⟩
    | null | bool | number | array | object => contradiction
  | numeric =>
    cases value with
    | number n => exact .inr ⟨n, rfl, rfl, (Option.some.inj encodes).symm⟩
    | null | bool | string | array | object => contradiction

theorem order_keys (encodes : secValue ft value = some v) (fv : Value) : order Number.doubleCmp fv value =
    (encodeFieldValue ft fv).bind fun key => (encodeSecValue ft v).map fun bound => compare key bound := by
  obtain ⟨s, rfl, rfl, rfl⟩ | ⟨n, rfl, rfl, rfl⟩ := secValue_cases encodes
  · cases fv with
    | string t => rfl
    | null | bool | number | array | object => rfl
  · cases fv with
    | number m =>
      simp only [order, Number.doubleCmp, Double.partialCmp, encodeFieldValue, encodeSecValue]
      cases Double.isNan m.asF64 <;> cases Double.isNan n.asF64 <;> simp [Core.compare_encodeF64]
    | null | bool | string | array | object => rfl

theorem idBytes_inj {s t : String} : Core.idBytes s = Core.idBytes t ↔ s = t := by
  refine ⟨fun same => ?_, congrArg _⟩
  have read := Core.fromUTF8?_idBytes s
  rw [same, Core.fromUTF8?_idBytes] at read
  exact (Option.some.inj read).symm

theorem valuesEq_order (encodes : secValue ft value = some v) (fv : Value) :
    valuesEq Number.doubleCmp fv value = (order Number.doubleCmp fv value == some .eq) := by
  obtain ⟨s, rfl, rfl, rfl⟩ | ⟨n, rfl, rfl, rfl⟩ := secValue_cases encodes
  · cases fv with
    | string t =>
      rw [Bool.eq_iff_iff, beq_iff_eq, order, Option.some.injEq, Std.LawfulEqCmp.compare_eq_iff_eq, idBytes_inj]
      simp [valuesEq, Value.beq]
    | null | bool | number | array | object => simp [valuesEq, order, Value.beq]
  · cases fv with
    | number m => rfl
    | null | bool | string | array | object => simp [valuesEq, order, Value.beq]

theorem any_key_eq (encodes : secValue ft value = some v) (fv : Value) :
    ((encodeFieldValue ft fv).any fun key => (encodeSecValue ft v).any (· == key)) =
      valuesEq Number.doubleCmp fv value := by
  rw [valuesEq_order encodes, order_keys encodes]
  cases encodeFieldValue ft fv with
  | none => rfl
  | some key =>
    cases encodeSecValue ft v with
    | none => rfl
    | some bound =>
      rw [Bool.eq_iff_iff]
      simp only [any_some, bind_some, Option.map_some, beq_iff_eq, Option.some.injEq,
        Std.LawfulEqCmp.compare_eq_iff_eq]
      exact eq_comm

theorem any_key_in {values : List Value} {vs : List SecValue} (encodes : values.mapM (secValue ft) = some vs)
    (fv : Value) : ((encodeFieldValue ft fv).any fun key => vs.any fun v => (encodeSecValue ft v).any (· == key)) =
      values.any fun candidate => valuesEq Number.doubleCmp fv candidate := by
  induction values generalizing vs with
  | nil =>
    cases encodes
    cases encodeFieldValue ft fv <;> rfl
  | cons value values ih =>
    rw [List.mapM_cons] at encodes
    obtain ⟨v, isValue, encodes⟩ := bind_eq_some_iff.mp encodes
    obtain ⟨rest, isRest, same⟩ := bind_eq_some_iff.mp encodes
    cases same
    rw [List.any_cons, ← ih isRest, ← any_key_eq isValue]
    cases encodeFieldValue ft fv <;> rfl

theorem any_order (encodes : secValue ft value = some v) (fv : Value) (g : Ordering → Bool) :
    ((encodeFieldValue ft fv).any fun key => (encodeSecValue ft v).any fun bound => g (compare key bound)) =
      (order Number.doubleCmp fv value).any g := by
  rw [order_keys encodes]
  cases encodeFieldValue ft fv with
  | none => rfl
  | some key => cases encodeSecValue ft v <;> rfl

theorem any_range (encodes : secValue ft value = some v) (fv : Value) (field : String) (isLower inclusive : Bool) :
    ((encodeFieldValue ft fv).any fun key => keyMatches ft key
        (if isLower then .range field (some v) none inclusive false else .range field none (some v) false inclusive)) =
      (order Number.doubleCmp fv value).any fun o =>
        o == (if isLower then .gt else .lt) || o == .eq && inclusive := by
  rw [← any_order encodes]
  cases encodeFieldValue ft fv with
  | none => rfl
  | some key =>
    cases isLower with
    | true | false => simp [keyMatches, Core.aboveLow, Core.belowHigh]

variable {parse : Parse} {filterable : List FilterableField}

theorem payloadMatches_eq (predicate : SecPredicate) (payload : Core.Bytes) :
    payloadMatches parse predicate ft payload = (parse payload).any fun value =>
      (fieldValue value predicate.field).any fun fv =>
        (encodeFieldValue ft fv).any fun key => keyMatches ft key predicate := by
  rw [payloadMatches, fieldKey]
  cases parse payload with
  | none => rfl
  | some value =>
    rw [bind_some, any_some]
    cases fieldValue value predicate.field <;> rfl

theorem fieldType_eq {field : String} (declared : fieldType filterable field = some ft) :
    ∃ f, (filterable.find? fun f => f.path == field) = some f ∧ f.fieldType = ft :=
  Option.map_eq_some_iff.mp declared

/-- The index predicate of a leaf is the leaf with numbers compared as doubles. -/
theorem leafPredicate_spec (parse : Parse) {leaf : Leaf} {predicate : SecPredicate}
    (plans : leafPredicate filterable leaf = some predicate) :
    ∃ f, (filterable.find? fun f => f.path == predicate.field) = some f ∧ ∀ payload,
      payloadMatches parse predicate f.fieldType payload =
        (parse payload).any fun value => leaf.matchesWith Number.doubleCmp value := by
  have sided : ∀ {field : String} {value : Value} {isLower inclusive : Bool} {g : Ordering → Bool},
      (∀ o, g o = (o == (if isLower then .gt else .lt) || o == .eq && inclusive)) →
      ((fieldType filterable field).bind fun ft => oneSidedRange field ft value isLower inclusive) = some predicate →
      ∃ f, (filterable.find? fun f => f.path == predicate.field) = some f ∧ ∀ payload,
        payloadMatches parse predicate f.fieldType payload =
          (parse payload).any fun payload => compares Number.doubleCmp payload field value g := by
    intro field value isLower inclusive g same plans
    obtain ⟨ft, declared, plans⟩ := bind_eq_some_iff.mp plans
    obtain ⟨v, encodes, rfl⟩ := Option.map_eq_some_iff.mp plans
    obtain ⟨f, found, rfl⟩ := fieldType_eq declared
    have isField : (if isLower then SecPredicate.range field (some v) none inclusive false
        else .range field none (some v) false inclusive).field = field := by
      cases isLower <;> rfl
    refine ⟨f, by rw [isField]; exact found, fun payload => ?_⟩
    rw [payloadMatches_eq, isField]
    congr 1
    funext payload
    rw [compares]
    cases fieldValue payload field with
    | none => rfl
    | some fv =>
      rw [any_some, bind_some, any_range encodes]
      congr 1
      funext o
      exact (same o).symm
  cases leaf with
  | eq field value =>
    obtain ⟨ft, declared, plans⟩ := bind_eq_some_iff.mp plans
    obtain ⟨v, encodes, same⟩ := bind_eq_some_iff.mp plans
    cases same
    obtain ⟨f, found, rfl⟩ := fieldType_eq declared
    refine ⟨f, found, fun payload => ?_⟩
    rw [payloadMatches_eq]
    simp only [keyMatches, any_key_eq encodes]
    rfl
  | isIn field values =>
    obtain ⟨ft, declared, plans⟩ := bind_eq_some_iff.mp plans
    obtain ⟨vs, encodes, same⟩ := bind_eq_some_iff.mp plans
    cases same
    obtain ⟨f, found, rfl⟩ := fieldType_eq declared
    refine ⟨f, found, fun payload => ?_⟩
    rw [payloadMatches_eq]
    simp only [keyMatches, any_key_in encodes]
    rfl
  | lt | lte | gt | gte => exact sided (by rintro (_ | _ | _) <;> rfl) plans
  | ne | isPresent => contradiction

end Leaves

/-- The set holds the ids of the payloads that meet a condition, or the condition always holds. -/
def Allows (parse : Parse) (m : ExtTreeMap String Record) (holds : Value → Bool) : Option (Finset String) → Prop
  | none => ∀ value, holds value = true
  | some set => ∀ id, id ∈ set ↔ ∃ record value,
      m[id]? = some record ∧ parse record.payload = some value ∧ holds value = true

section Soundness

variable {parse : Parse} {c : CollectionState} {m : ExtTreeMap String Record} {f g : Value → Bool}
  {s t : Finset String}

theorem Allows.congr {set : Option (Finset String)} (allows : Allows parse m f set) (same : ∀ value, f value = g value) :
    Allows parse m g set := (funext same : f = g) ▸ allows

theorem Allows.inter (first : Allows parse m f (some s)) (second : Allows parse m g (some t)) :
    Allows parse m (fun value => f value && g value) (some (s ∩ t)) := by
  intro id
  rw [Finset.mem_inter, first id, second id]
  constructor
  · rintro ⟨⟨record, value, found, parsed, holds⟩, ⟨_, _, found', parsed', holds'⟩⟩
    cases found.symm.trans found'
    cases parsed.symm.trans parsed'
    exact ⟨record, value, found, parsed, Bool.and_eq_true_iff.mpr ⟨holds, holds'⟩⟩
  · rintro ⟨record, value, found, parsed, holds⟩
    obtain ⟨left, right⟩ := Bool.and_eq_true_iff.mp holds
    exact ⟨⟨record, value, found, parsed, left⟩, ⟨record, value, found, parsed, right⟩⟩

theorem Allows.union (first : Allows parse m f (some s)) (second : Allows parse m g (some t)) :
    Allows parse m (fun value => f value || g value) (some (s ∪ t)) := by
  intro id
  rw [Finset.mem_union, first id, second id]
  constructor
  · rintro (⟨record, value, found, parsed, holds⟩ | ⟨record, value, found, parsed, holds⟩)
    · exact ⟨record, value, found, parsed, Bool.or_eq_true_iff.mpr (.inl holds)⟩
    · exact ⟨record, value, found, parsed, Bool.or_eq_true_iff.mpr (.inr holds)⟩
  · rintro ⟨record, value, found, parsed, holds⟩
    obtain left | right := Bool.or_eq_true_iff.mp holds
    · exact .inl ⟨record, value, found, parsed, left⟩
    · exact .inr ⟨record, value, found, parsed, right⟩

theorem leafCandidates_spec (parse : Parse) (answers : c.Answers m) (leaf : Leaf) : ∃ set, leafCandidates parse c leaf = .ok set ∧
    Allows parse m (fun value => rounded c.descriptor.filterable value (.leaf leaf)) set := by
  cases plans : leafPredicate c.descriptor.filterable leaf with
  | none => exact ⟨none, by rw [leafCandidates, plans], fun value => by simp [rounded, plans]⟩
  | some predicate =>
    obtain ⟨field, found, agrees⟩ := leafPredicate_spec parse plans
    obtain ⟨rows, inv, indexed, content⟩ := answers
    obtain ⟨ids, isOk, members⟩ : ∃ ids, c.matchingIds parse predicate = .ok ids ∧ _ := inv.matchingIds indexed found
    refine ⟨some ids.toFinset, by rw [leafCandidates, plans]; simp only [isOk]; rfl, fun id => ?_⟩
    simp only [List.mem_toFinset, members, agrees, rounded, plans, Option.isNone_some, Bool.false_or, content]
    constructor
    · rintro ⟨record, contains, holds⟩
      obtain ⟨value, parsed, holds⟩ := (any_eq_true ..).mp holds
      exact ⟨record, value, contains, parsed, holds⟩
    · rintro ⟨record, value, contains, parsed, holds⟩
      exact ⟨record, contains, (any_eq_true ..).mpr ⟨value, parsed, holds⟩⟩

mutual

theorem candidateIds_spec (answers : c.Answers m) : (filter : Filter) → ∃ set, candidateIds parse c filter = .ok set ∧
    Allows parse m (fun value => rounded c.descriptor.filterable value filter) set
  | .and subs => by
    obtain ⟨set, isOk, allows⟩ := candidatesAnd_spec answers subs none (fun _ => true) fun _ => rfl
    exact ⟨set, by rw [candidateIds]; exact isOk, allows.congr fun value => by rw [rounded, Bool.true_and]⟩
  | .or subs => by
    obtain ⟨set, isOk, allows⟩ := candidatesOr_spec answers subs ∅ (fun _ => false) fun id => by simp
    exact ⟨set, by rw [candidateIds]; exact isOk, allows.congr fun value => by rw [rounded, Bool.false_or]⟩
  | .not sub => ⟨none, by rw [candidateIds], fun value => by simp only [rounded]⟩
  | .leaf leaf => by
    obtain ⟨set, isOk, allows⟩ := leafCandidates_spec parse answers leaf
    exact ⟨set, by rw [candidateIds]; exact isOk, allows⟩

theorem candidatesAnd_spec (answers : c.Answers m) : (subs : List Filter) → (acc : Option (Finset String)) →
    (g : Value → Bool) → Allows parse m g acc → ∃ set, candidatesAnd parse c subs acc = .ok set ∧
      Allows parse m (fun value => g value && roundedAll c.descriptor.filterable value subs) set
  | [], acc, g, allows => ⟨acc, by rw [candidatesAnd], allows.congr fun value => by rw [roundedAll, Bool.and_true]⟩
  | sub :: subs, acc, g, allows => by
    obtain ⟨set, isOk, narrows⟩ := candidateIds_spec answers sub
    rw [candidatesAnd, isOk, Results.ok_bind]
    cases set with
    | none =>
      obtain ⟨rest, isRest, allRest⟩ := candidatesAnd_spec answers subs acc g allows
      refine ⟨rest, isRest, allRest.congr fun value => ?_⟩
      have sure : rounded c.descriptor.filterable value sub = true := narrows value
      rw [roundedAll, sure, Bool.true_and]
    | some set =>
      have both : Allows parse m (fun value => g value && rounded c.descriptor.filterable value sub)
          (some (narrow acc set)) := by
        cases acc with
        | some existing => exact allows.inter narrows
        | none => exact narrows.congr fun value => by rw [allows value, Bool.true_and]
      obtain ⟨rest, isRest, allRest⟩ := candidatesAnd_spec answers subs _ _ both
      exact ⟨rest, isRest, allRest.congr fun value => by rw [roundedAll, Bool.and_assoc]⟩

theorem candidatesOr_spec (answers : c.Answers m) : (subs : List Filter) → (acc : Finset String) →
    (g : Value → Bool) → Allows parse m g (some acc) → ∃ set, candidatesOr parse c subs acc = .ok set ∧
      Allows parse m (fun value => g value || roundedAny c.descriptor.filterable value subs) set
  | [], acc, g, allows =>
    ⟨some acc, by rw [candidatesOr], allows.congr fun value => by rw [roundedAny, Bool.or_false]⟩
  | sub :: subs, acc, g, allows => by
    obtain ⟨set, isOk, narrows⟩ := candidateIds_spec answers sub
    rw [candidatesOr, isOk, Results.ok_bind]
    cases set with
    | none =>
      refine ⟨none, rfl, fun value => ?_⟩
      have sure : rounded c.descriptor.filterable value sub = true := narrows value
      simp only [roundedAny, sure, Bool.true_or, Bool.or_true]
    | some set =>
      obtain ⟨rest, isRest, allRest⟩ := candidatesOr_spec answers subs _ _ (allows.union narrows)
      exact ⟨rest, isRest, allRest.congr fun value => by rw [roundedAny, Bool.or_assoc]⟩

end

/-- The candidates hold every matching id exactly if every matching payload also matches with the
numbers of indexed leaves compared as doubles. -/
theorem candidates_hold_matches_iff (answers : c.Answers m) {filter : Filter} {set : Finset String}
    (planned : candidateIds parse c filter = .ok (some set)) :
    (∀ (id : String) (record : Record) (value : Value), m[id]? = some record → parse record.payload = some value →
      filter.matches value = true → id ∈ set) ↔
    ∀ (id : String) (record : Record) (value : Value), m[id]? = some record → parse record.payload = some value →
      filter.matches value = true → rounded c.descriptor.filterable value filter = true := by
  obtain ⟨found, isOk, allows⟩ : ∃ found, candidateIds parse c filter = .ok found ∧ _ := candidateIds_spec answers filter
  cases isOk.symm.trans planned
  constructor
  · intro sound id record value contains parsed holds
    obtain ⟨_, _, contains', parsed', rounds⟩ := (allows id).mp (sound id record value contains parsed holds)
    cases contains.symm.trans contains'
    cases parsed.symm.trans parsed'
    exact rounds
  · intro rounds id record value contains parsed holds
    exact (allows id).mpr ⟨record, value, contains, parsed, rounds id record value contains parsed holds⟩

end Soundness

/-- One row whose field is 2^53 + 1, which rounds to 2^53. -/
def numberRow : CollectionState where
  id := 0
  name := "c"
  descriptor := { dim := 1, metric := .l2, filterable := [⟨"n", .numeric⟩] }
  codec := 0
  active := [⟨[0, 0, 0, 0], [1]⟩]
  activeIndex := (∅ : ExtTreeMap String Nat).insert "a" 0

def numberPayload : Value := .object [("n", .number (.posInt 9007199254740993))]

def readNumber : Parse := fun payload => if payload = [1] then some numberPayload else none

def numberRecord : Record := ⟨Core.leBytesToF32 [0, 0, 0, 0], [1]⟩

theorem answers_numberRow : numberRow.Answers ((∅ : ExtTreeMap String Record).insert "a" numberRecord) := by
  obtain ⟨c, isOk, rows, inv, content⟩ :=
    (Core.Catalog.represents_new 0 "c" numberRow.descriptor 0).applyUpsert "a" [1]
      (show ([0, 0, 0, 0] : Core.Bytes).length = 4 from rfl)
  have isRow : c = numberRow := by
    cases isOk
    rfl
  subst isRow
  exact ⟨rows, inv, fun segIdx seg ids isSeg => by simp [numberRow] at isSeg, content⟩

theorem candidates_hold_matches_gte : ∃ set,
    candidateIds readNumber numberRow (.leaf (.gte "n" (.number (.posInt 9007199254740992)))) = .ok (some set) ∧
    ∀ (id : String) (record : Record) (value : Value),
      ((∅ : ExtTreeMap String Record).insert "a" numberRecord)[id]? = some record →
      readNumber record.payload = some value →
      (Filter.leaf (.gte "n" (.number (.posInt 9007199254740992)))).matches value = true → id ∈ set := by
  have planned : candidateIds readNumber numberRow (.leaf (.gte "n" (.number (.posInt 9007199254740992)))) =
      .ok (some {"a"}) := rfl
  refine ⟨_, planned, (candidates_hold_matches_iff answers_numberRow planned).mpr ?_⟩
  intro id record value _ parsed _
  have isValue : value = numberPayload := by
    rw [readNumber] at parsed
    split at parsed
    · exact (Option.some.inj parsed).symm
    · contradiction
  rw [isValue]
  decide +kernel

/-- A strict comparison of integers that round to one double misses the row. -/
theorem candidates_miss_rounded_integer :
    candidateIds readNumber numberRow (.leaf (.gt "n" (.number (.posInt 9007199254740992)))) = .ok (some ∅) ∧
      readNumber numberRecord.payload = some numberPayload ∧
      (Filter.leaf (.gt "n" (.number (.posInt 9007199254740992)))).matches numberPayload = true ∧
      numberRow.get "a" = .ok (some numberRecord) := by
  exact ⟨rfl, rfl, by decide +kernel, rfl⟩

end Quiver.Embed
