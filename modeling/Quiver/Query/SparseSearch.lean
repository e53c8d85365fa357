import Quiver.Query.SparseIndex
import Mathlib.Algebra.Field.Rat

/-!
Every run of the sparse index, and what its searches return: a function of the documents that are live.
-/

namespace Quiver.Query.SparseInvertedIndex

open Std (ExtTreeMap)
open Tally Maps
open Std.ExtTreeMap (ext_getElem? length_toList mem_toList_iff_getElem?_eq_some)

inductive Op (W : Type) where
  | upsert (ext : String) (sv : SparseVector W)
  | remove (ext : String)

section Documents

variable {W : Type}

def Op.onDocuments (docs : ExtTreeMap String (SparseVector W)) : Op W → ExtTreeMap String (SparseVector W)
  | .upsert ext sv => docs.insert ext sv
  | .remove ext => docs.erase ext

/-- The documents that are live, with their last vectors. -/
def documents (ops : List (Op W)) : ExtTreeMap String (SparseVector W) := ops.foldl Op.onDocuments ∅

/-- The documents by the weights of their vectors. -/
def weighted (docs : ExtTreeMap String (SparseVector W)) : ExtTreeMap String (ExtTreeMap Nat W) :=
  docs.map fun _ sv => sv.weights

section

variable (docs : ExtTreeMap String (SparseVector W))
include docs

theorem getElem?_weighted (ext : String) :
    (weighted docs)[ext]? = (docs[ext]?).map SparseVector.weights := ExtTreeMap.getElem?_map

theorem weighted_insert (ext : String) (sv : SparseVector W) :
    weighted (docs.insert ext sv) = (weighted docs).insert ext sv.weights := by
  refine ext_getElem? fun other => ?_
  rw [getElem?_weighted, get_insert, get_insert, getElem?_weighted]
  split <;> rfl

theorem weighted_erase (ext : String) :
    weighted (docs.erase ext) = (weighted docs).erase ext := by
  refine ext_getElem? fun other => ?_
  rw [getElem?_weighted, get_erase, get_erase, getElem?_weighted]
  split <;> rfl

theorem size_weighted : (weighted docs).size = docs.size := by
  refine size_eq fun ext => ?_
  rw [getElem?_weighted, Option.isSome_map]

end

theorem documents_append (ops : List (Op W)) (op : Op W) : documents (ops ++ [op]) = op.onDocuments (documents ops) := by
  rw [documents, List.foldl_append]
  rfl

/-- At no time are more documents live than there are slots. -/
def Few (ops : List (Op W)) : Prop := ∀ n, (documents (ops.take n)).size ≤ 2 ^ 32

theorem Few.before {ops : List (Op W)} {op : Op W} (few : Few (ops ++ [op])) : Few ops := by
  intro n
  obtain low | high := Nat.le_total n ops.length
  · have same := few n
    rw [List.take_append_of_le_length low] at same
    exact same
  · have same := few ops.length
    rw [List.take_append_of_le_length (Nat.le_refl _), List.take_length] at same
    rw [List.take_of_length_le high]
    exact same

theorem Few.all {ops : List (Op W)} (few : Few ops) : (documents ops).size ≤ 2 ^ 32 := by
  have same := few ops.length
  rw [List.take_length] at same
  exact same

def upserts (entries : List (String × SparseVector W)) : List (Op W) := entries.map fun e => .upsert e.1 e.2

theorem documents_upserts (entries : List (String × SparseVector W)) : documents (upserts entries) = entered ∅ entries := by
  rw [documents, upserts, List.foldl_map]
  rfl

theorem size_documents_le (ops : List (Op W)) : (documents ops).size ≤ ops.length := by
  induction ops using List.reverseRecOn with
  | nil => simp [documents]
  | append_singleton ops op ih =>
    rw [documents_append, List.length_append, List.length_singleton]
    cases op with
    | upsert ext sv => exact Nat.le_trans ExtTreeMap.size_insert_le (Nat.succ_le_succ ih)
    | remove ext => exact Nat.le_succ_of_le (Nat.le_trans ExtTreeMap.size_erase_le ih)

theorem few_of_length {ops : List (Op W)} (short : ops.length ≤ 2 ^ 32) : Few ops := by
  intro n
  have bound := size_documents_le (ops.take n)
  rw [List.length_take] at bound
  omega

end Documents

section Runs

variable {W : Type} [AddCommGroup W] {idx : SparseInvertedIndex W} {m : ExtTreeMap String (ExtTreeMap Nat W)}

def apply (idx : SparseInvertedIndex W) : Op W → SparseInvertedIndex W
  | .upsert ext sv => idx.upsert ext sv
  | .remove ext => (idx.remove ext).1

def run (ops : List (Op W)) : SparseInvertedIndex W := ops.foldl apply new

theorem run_append (ops : List (Op W)) (op : Op W) : run (ops ++ [op]) = (run ops).apply op := by
  rw [run, List.foldl_append]
  rfl

theorem represents_new : (new : SparseInvertedIndex W).Represents ∅ where
  lengths := ⟨rfl, rfl⟩
  known _ := by simp [new]
  named there := by simp [new] at there
  holds there := by simp [new] at there
  vacant _ _ := by simp [new, posted]
  free := ⟨List.nodup_nil, fun s => by simp [new]⟩
  blank _ member := by simp [new] at member
  nonempty held := by simp [new] at held
  len := by simp [new]
  total := tally_empty.symm

theorem Represents.absent (rep : idx.Represents m) {ext : String} (unknown : idx.slotOf[ext]? = none) : m[ext]? = none := by
  have known := rep.known ext
  rw [unknown] at known
  exact Option.not_isSome_iff_eq_none.mp (by rw [← known]; exact Bool.false_ne_true)

theorem Represents.upsert (rep : idx.Represents m) (ext : String) (sv : SparseVector W)
    (few : m[ext]? = none → m.size < 2 ^ 32) : (idx.upsert ext sv).Represents (m.insert ext sv.weights) := by
  unfold SparseInvertedIndex.upsert
  split
  · rename_i slot here
    rw [← erase_insert]
    exact (rep.clear here).enter sv.weights
  · rename_i unknown
    have absent := rep.absent unknown
    exact (rep.allocate absent (few absent)).enter sv.weights

theorem Represents.remove (rep : idx.Represents m) (ext : String) : (idx.remove ext).1.Represents (m.erase ext) := by
  unfold SparseInvertedIndex.remove
  split
  · rename_i unknown
    rw [erase_absent (rep.absent unknown)]
    exact rep
  · rename_i slot here
    exact (rep.clear here).release

theorem Represents.apply {docs : ExtTreeMap String (SparseVector W)} (rep : idx.Represents (weighted docs)) (op : Op W)
    (few : (op.onDocuments docs).size ≤ 2 ^ 32) : (idx.apply op).Represents (weighted (op.onDocuments docs)) := by
  cases op with
  | upsert ext sv =>
    rw [Op.onDocuments, weighted_insert]
    refine rep.upsert ext sv fun absent => ?_
    rw [getElem?_weighted, Option.map_eq_none_iff] at absent
    rw [Op.onDocuments, size_insert absent] at few
    rw [size_weighted]
    omega
  | remove ext =>
    rw [Op.onDocuments, weighted_erase]
    exact rep.remove ext

theorem represents_run {ops : List (Op W)} (few : Few ops) : (run ops).Represents (weighted (documents ops)) := by
  induction ops using List.reverseRecOn with
  | nil =>
    have none : weighted (documents ([] : List (Op W))) = ∅ := ext_getElem? fun ext => by
      rw [getElem?_weighted]
      simp [documents]
    rw [none]
    exact represents_new
  | append_singleton ops op ih =>
    have all := few.all
    rw [documents_append] at all ⊢
    rw [run_append]
    exact (ih few.before).apply op all

end Runs

section Order

variable {W : Type} [LinearOrder W]

theorem ranks_total (a b : String × W) : Ranks a b ∨ Ranks b a := by
  unfold Ranks
  obtain low | same | high := lt_trichotomy a.2 b.2
  · exact .inr (.inl low)
  · obtain first | first := le_total a.1 b.1
    · exact .inl (.inr ⟨same, first⟩)
    · exact .inr (.inr ⟨same.symm, first⟩)
  · exact .inl (.inl high)

theorem ranks_trans {a b c : String × W} (first : Ranks a b) (second : Ranks b c) : Ranks a c := by
  obtain high | ⟨same, first⟩ := first
  · obtain high' | ⟨same', _⟩ := second
    · exact .inl (high'.trans high)
    · exact .inl (same' ▸ high)
  · obtain high' | ⟨same', second⟩ := second
    · exact .inl (same ▸ high')
    · exact .inr ⟨same.trans same', first.trans second⟩

theorem ranks_antisymm {a b : String × W} (first : Ranks a b) (second : Ranks b a) : a = b := by
  obtain high | ⟨same, first⟩ := first
  · obtain high' | ⟨same', _⟩ := second
    · exact absurd (high.trans high') (lt_irrefl _)
    · exact absurd (same' ▸ high) (lt_irrefl _)
  · obtain high' | ⟨_, second⟩ := second
    · exact absurd (same ▸ high') (lt_irrefl _)
    · exact Prod.ext (le_antisymm first second) same

theorem eq_of_ranked {l l' : List (String × W)} (perm : l.Perm l') (sorted : l.Pairwise Ranks)
    (sorted' : l'.Pairwise Ranks) : l = l' := by
  have antisymm : Std.Antisymm fun a b : String × W => Ranks a b := ⟨fun _ _ => ranks_antisymm⟩
  exact perm.eq_of_pairwise' sorted sorted'

theorem pairwise_sorted (l : List (String × W)) : (l.insertionSort Ranks).Pairwise Ranks := by
  have total : Std.Total fun a b : String × W => Ranks a b := ⟨ranks_total⟩
  have trans : IsTrans (String × W) Ranks := ⟨fun _ _ _ => ranks_trans⟩
  exact List.pairwise_insertionSort _ _

end Order

section Frequencies

variable {W : Type} [AddCommGroup W] {idx : SparseInvertedIndex W} {m : ExtTreeMap String (ExtTreeMap Nat W)}

/-- The number of documents that have a dimension. -/
def frequency (m : ExtTreeMap String (ExtTreeMap Nat W)) (dim : Nat) : Nat :=
  m.toList.countP fun e => (e.2[dim]?).isSome

theorem Represents.posted_slot (rep : idx.Represents m) {d s : Nat} {x : W} (isPosted : posted idx.postings d s = some x) :
    ∃ (ext : String) (w : ExtTreeMap Nat W), idx.slotOf[ext]? = some s ∧ m[ext]? = some w ∧ w[d]? = some x := by
  by_contra none
  have vacant : idx.Vacant s := fun ext here => by
    obtain ⟨w, held⟩ := rep.document here
    exact none ⟨ext, w, here, held, ((rep.holds here held).posted d).symm.trans isPosted⟩
  rw [rep.vacant vacant d] at isPosted
  cases isPosted

theorem Represents.slot (rep : idx.Represents m) {ext : String} {w : ExtTreeMap Nat W} (held : m[ext]? = some w) :
    ∃ s, idx.slotOf[ext]? = some s := by
  have known := rep.known ext
  rw [held] at known
  exact Option.isSome_iff_exists.mp known

omit [AddCommGroup W] in
theorem posted_of_postings {d : Nat} {plist : ExtTreeMap Nat W} (held : idx.postings[d]? = some plist) (s : Nat) :
    posted idx.postings d s = plist[s]? := by
  rw [posted, held, Option.bind_some]

/-- A dimension is posted once for each document that has it. -/
theorem Represents.size_postings (rep : idx.Represents m) {d : Nat} {plist : ExtTreeMap Nat W}
    (held : idx.postings[d]? = some plist) : plist.size = frequency m d := by
  have isName : ∀ {s : Nat} {x : W}, plist[s]? = some x →
      ∃ (ext : String) (w : ExtTreeMap Nat W), idx.slotOf[ext]? = some s ∧ m[ext]? = some w ∧ w[d]? = some x :=
    fun here => rep.posted_slot ((posted_of_postings held _).trans here)
  have perm : (plist.toList.map fun e => (idx.extOf[e.1]?).getD "").Perm
      ((m.toList.filter fun e => (e.2[d]?).isSome).map Prod.fst) := by
    refine (List.perm_ext_iff_of_nodup ?_ ?_).mpr fun ext => ?_
    · refine nodup_map fun inside inside' same => ?_
      obtain ⟨ext, w, there, _⟩ := isName inside
      obtain ⟨ext', w', there', _⟩ := isName inside'
      simp only [rep.named there, rep.named there', Option.getD_some] at same
      subst same
      exact Option.some.inj (there.symm.trans there')
    · refine List.Nodup.sublist (List.filter_sublist.map Prod.fst) ?_
      rw [ExtTreeMap.map_fst_toList_eq_keys]
      exact ExtTreeMap.nodup_keys
    · simp only [List.mem_map, List.mem_filter, mem_toList_iff_getElem?_eq_some, Prod.exists]
      constructor
      · rintro ⟨s, x, here, rfl⟩
        obtain ⟨ext, w, there, held', isX⟩ := isName here
        refine ⟨ext, w, ⟨held', by rw [isX]; rfl⟩, ?_⟩
        rw [rep.named there]
        rfl
      · rintro ⟨ext', w, ⟨held', some⟩, rfl⟩
        obtain ⟨s, there⟩ := rep.slot held'
        obtain ⟨x, isX⟩ := Option.isSome_iff_exists.mp some
        refine ⟨s, x, ?_, by rw [rep.named there]; rfl⟩
        rw [← posted_of_postings held, (rep.holds there held').posted d, isX]
  rw [frequency, List.countP_eq_length_filter, ← List.length_map (f := Prod.fst), ← perm.length_eq, List.length_map,
    length_toList]

end Frequencies

section Scores

variable {W : Type} [Field W] [LinearOrder W] {idx : SparseInvertedIndex W} {m : ExtTreeMap String (ExtTreeMap Nat W)}

theorem ranked_perm {scores scores' : List (String × W)}
    (perm : (scores.filter fun e => decide (0 < e.2)).Perm (scores'.filter fun e => decide (0 < e.2))) :
    ranked scores = ranked scores' := by
  have sorted := ((List.perm_insertionSort Ranks _).trans perm).trans (List.perm_insertionSort Ranks _).symm
  exact eq_of_ranked sorted (pairwise_sorted _) (pairwise_sorted _)

section Terms

variable {T : Type} {dim : T → Nat} {term : T → Nat → Nat → W → W} {term' : T → Nat → ExtTreeMap Nat W → W → W}

/-- The score of a document: what the terms add that it has. -/
def documentScore (dim : T → Nat) (term : T → Nat → ExtTreeMap Nat W → W → W)
    (m : ExtTreeMap String (ExtTreeMap Nat W)) (terms : List T) (w : ExtTreeMap Nat W) : W :=
  (terms.map fun t => ((w[dim t]?).map (term t (frequency m (dim t)) w)).getD 0).sum

omit [LinearOrder W] in
theorem addPostings_getD (rep : idx.Represents m) (scores : ExtTreeMap Nat W) (d : Nat) (f : Nat → Nat → W → W) (s : Nat) :
    ((idx.addPostings d f scores)[s]?).getD 0 =
      (scores[s]?).getD 0 + ((posted idx.postings d s).map (f (frequency m d) s)).getD 0 := by
  unfold addPostings
  split
  · rename_i none
    rw [posted, none]
    simp
  · rename_i plist held
    rw [gather_getD, posted_of_postings held, ← rep.size_postings held, List.filter_map, List.map_map]
    congr 1
    rw [← sum_filter_key plist s (f plist.size s)]
    refine congrArg List.sum (List.map_congr_left fun e inside => ?_)
    have isSlot : e.1 = s := by simpa using (List.mem_filter.mp inside).2
    simp [isSlot]

omit [LinearOrder W] in
theorem scored_getD (rep : idx.Represents m) (terms : List T) (s : Nat) :
    ((idx.scored dim term terms)[s]?).getD 0 =
      (terms.map fun t => ((posted idx.postings (dim t) s).map (term t (frequency m (dim t)) s)).getD 0).sum := by
  have general : ∀ scores : ExtTreeMap Nat W,
      ((terms.foldl (fun scores t => idx.addPostings (dim t) (term t) scores) scores)[s]?).getD 0 = (scores[s]?).getD 0 +
        (terms.map fun t => ((posted idx.postings (dim t) s).map (term t (frequency m (dim t)) s)).getD 0).sum := by
    induction terms with
    | nil => simp
    | cons t terms ih =>
      intro scores
      rw [List.foldl_cons, ih, addPostings_getD rep, List.map_cons, List.sum_cons, add_assoc]
  rw [scored, general]
  simp

omit [LinearOrder W] in
theorem posted_of_scored {terms : List T} {s : Nat} (some : ((idx.scored dim term terms)[s]?).isSome = true) :
    ∃ t x, posted idx.postings (dim t) s = .some x := by
  have general : ∀ (terms : List T) (scores : ExtTreeMap Nat W),
      ((terms.foldl (fun scores t => idx.addPostings (dim t) (term t) scores) scores)[s]?).isSome = true →
      (scores[s]?).isSome = true ∨ ∃ t x, posted idx.postings (dim t) s = .some x := by
    intro terms
    induction terms with
    | nil => exact fun _ here => .inl here
    | cons t terms ih =>
      intro scores here
      obtain added | later := ih (idx.addPostings (dim t) (term t) scores) here
      · unfold addPostings at added
        split at added
        · exact .inl added
        · rename_i plist held
          obtain before | ⟨w, member⟩ := (mem_gather _ _ _).mp added
          · exact .inl before
          · obtain ⟨e, inside, isSlot⟩ := List.mem_map.mp member
            obtain ⟨rfl, _⟩ := Prod.mk.inj isSlot
            refine .inr ⟨t, e.2, ?_⟩
            rw [posted_of_postings held]
            exact mem_toList_iff_getElem?_eq_some.mp inside
      · exact .inr later
  obtain none | found := general terms ∅ some
  · simp at none
  · exact found

/-- The results are the documents with a positive score, whatever slots they are in. -/
theorem results_scored (rep : idx.Represents m) (terms : List T)
    (same : ∀ {ext : String} {s : Nat} {w : ExtTreeMap Nat W}, idx.slotOf[ext]? = some s → m[ext]? = some w →
      ∀ t n x, term t n s x = term' t n w x) :
    idx.results (idx.scored dim term terms) =
      ranked (m.toList.map fun e => (e.1, documentScore dim term' m terms e.2)) := by
  have score : ∀ {ext : String} {s : Nat} {w : ExtTreeMap Nat W}, idx.slotOf[ext]? = some s → m[ext]? = some w →
      ((idx.scored dim term terms)[s]?).getD 0 = documentScore dim term' m terms w := by
    intro ext s w here held
    rw [scored_getD rep, documentScore]
    refine congrArg List.sum (List.map_congr_left fun t _ => ?_)
    rw [(rep.holds here held).posted]
    cases w[dim t]? with
    | none => rfl
    | some x => simp only [Option.map_some, Option.getD_some, same here held]
  have slotOf : ∀ {s : Nat} {x : W}, (idx.scored dim term terms)[s]? = some x →
      ∃ (ext : String) (w : ExtTreeMap Nat W), idx.slotOf[ext]? = some s ∧ m[ext]? = some w := by
    intro s x here
    obtain ⟨t, y, isPosted⟩ := posted_of_scored (by rw [here]; rfl)
    obtain ⟨ext, w, there, held, _⟩ := rep.posted_slot isPosted
    exact ⟨ext, w, there, held⟩
  refine ranked_perm ((List.perm_ext_iff_of_nodup ?_ ?_).mpr fun e => ?_)
  · refine List.Nodup.filter _ (nodup_map fun inside inside' isSame => ?_)
    obtain ⟨ext, w, there, _⟩ := slotOf inside
    obtain ⟨ext', w', there', _⟩ := slotOf inside'
    simp only [rep.named there, rep.named there', Option.getD_some, Prod.mk.injEq] at isSame
    obtain ⟨rfl, rfl⟩ := isSame
    exact Option.some.inj (there.symm.trans there')
  · exact List.Nodup.filter _ (nodup_map fun _ _ isSame => (Prod.mk.inj isSame).1)
  · obtain ⟨ext, x⟩ := e
    simp only [List.mem_filter, List.mem_map, mem_toList_iff_getElem?_eq_some, Prod.exists, Prod.mk.injEq,
      decide_eq_true_eq]
    refine and_congr_left fun positive => ?_
    constructor
    · rintro ⟨s, y, here, rfl, rfl⟩
      obtain ⟨ext, w, there, held⟩ := slotOf here
      refine ⟨ext, w, held, by rw [rep.named there]; rfl, ?_⟩
      rw [← score there held, here]
      rfl
    · rintro ⟨ext', w, held, rfl, isScore⟩
      obtain ⟨s, there⟩ := rep.slot held
      have isX := score there held
      rw [isScore] at isX
      cases here : (idx.scored dim term terms)[s]? with
      | none =>
        rw [here] at isX
        exact absurd (isX ▸ positive) (lt_irrefl _)
      | some y =>
        rw [here] at isX
        exact ⟨s, y, here, by rw [rep.named there]; rfl, isX⟩

end Terms

theorem search_eq (rep : idx.Represents m) (query : SparseVector W) : idx.search query =
    ranked (m.toList.map fun e =>
      (e.1, documentScore Prod.fst (fun t _ _ x => t.2 * x) m query.weights.toList e.2)) :=
  results_scored rep _ fun _ _ _ _ _ => rfl

theorem bm25Search_eq (rep : idx.Represents m) (ln : W → W) (minPositive : W) (terms : List Nat) (k1 b : W) :
    bm25Search ln minPositive idx terms k1 b = if m.size = 0 then [] else
      ranked (m.toList.map fun e => (e.1, documentScore (fun t => t) (fun _ df w tf =>
        bm25Term ln k1 b m.size (max (tally (tally id) m / m.size) minPositive) df (tally id w) tf) m terms.eraseDups e.2)) := by
  unfold bm25Search
  rw [rep.len]
  split
  · rfl
  · rw [rep.total]
    refine results_scored rep _ fun here held t n x => ?_
    rw [(rep.holds here held).doclen, Option.getD_some]

/-- After any run, a search over the postings finds what scoring each live document finds: by its inner product
with the query, and by BM25 with the frequencies and lengths of the live documents. -/
theorem searches_exhaustive {ops : List (Op W)} (few : Few ops) (query : SparseVector W) (ln : W → W)
    (minPositive : W) (terms : List Nat) (k1 b : W) :
    ∃ m, m = weighted (documents ops) ∧
      (run ops).search query = ranked (m.toList.map fun e =>
        (e.1, documentScore Prod.fst (fun t _ _ x => t.2 * x) m query.weights.toList e.2)) ∧
      bm25Search ln minPositive (run ops) terms k1 b = if m.size = 0 then [] else
        ranked (m.toList.map fun e => (e.1, documentScore id (fun _ df w tf => bm25Term ln k1 b m.size
          (max (tally (tally id) m / m.size) minPositive) df (tally id w) tf) m terms.eraseDups e.2)) :=
  ⟨_, rfl, search_eq (represents_run few) query, bm25Search_eq (represents_run few) ..⟩

/-- A document is written again with another vector, and one is removed. -/
theorem searches_exhaustive_rewritten : ∃ (ops : List (Op ℚ)) (m : ExtTreeMap String (ExtTreeMap Nat ℚ)),
    ops = [.upsert "a" ⟨[1, 2], [1, 1]⟩, .upsert "b" ⟨[2], [3]⟩, .upsert "a" ⟨[2], [5]⟩, .remove "b"] ∧
      m = weighted (documents ops) ∧ (run ops).search ⟨[2], [1]⟩ = ranked (m.toList.map fun e =>
        (e.1, documentScore Prod.fst (fun t _ _ x => t.2 * x) m (SparseVector.mk [2] [(1 : ℚ)]).weights.toList e.2)) := by
  obtain ⟨ops, isOps⟩ : ∃ ops : List (Op ℚ), ops =
    [.upsert "a" ⟨[1, 2], [1, 1]⟩, .upsert "b" ⟨[2], [3]⟩, .upsert "a" ⟨[2], [5]⟩, .remove "b"] := ⟨_, rfl⟩
  have few : Few ops := few_of_length (by simp [isOps])
  obtain ⟨m, isWeighted, found, _⟩ := searches_exhaustive few ⟨[2], [1]⟩ id 1 [] 1 1
  exact ⟨ops, m, isOps, isWeighted, found⟩

/-- Every run of the index holds exactly the documents that are live, each with its last vector, and so does an
index that these are entered in once, in any order. Up to slots they have the same postings, and they return
the same results. -/
theorem sparse_index_rebuilds {ops : List (Op W)} (few : Few ops) {order : List (String × SparseVector W)}
    (isOrder : order.Perm (documents ops).toList) {rebuilt : SparseInvertedIndex W} (isRebuilt : rebuilt = run (upserts order)) :
    (run ops).Represents (weighted (documents ops)) ∧ rebuilt.Represents (weighted (documents ops)) ∧
      (∀ {ext : String} {s s' : Nat}, (run ops).slotOf[ext]? = some s → rebuilt.slotOf[ext]? = some s' →
        ∀ dim, posted (run ops).postings dim s = posted rebuilt.postings dim s') ∧
      (∀ query, (run ops).search query = rebuilt.search query) ∧
      ∀ (ln : W → W) (minPositive : W) (terms : List Nat) (k1 b : W),
        bm25Search ln minPositive (run ops) terms k1 b = bm25Search ln minPositive rebuilt terms k1 b := by
  subst isRebuilt
  have rep := represents_run few
  have rep' : (run (upserts order)).Represents (weighted (documents ops)) := by
    have short : (upserts order).length ≤ 2 ^ 32 := by
      rw [upserts, List.length_map, isOrder.length_eq, length_toList]
      exact few.all
    have built := represents_run (few_of_length short)
    rw [documents_upserts, entered_toList isOrder] at built
    exact built
  refine ⟨rep, rep', fun {ext s s'} here there dim => ?_, fun query => ?_, fun ln minPositive terms k1 b => ?_⟩
  · obtain ⟨w, held⟩ := rep.document here
    rw [(rep.holds here held).posted, (rep'.holds there held).posted]
  · rw [search_eq rep, search_eq rep']
  · rw [bm25Search_eq rep, bm25Search_eq rep']

theorem sparse_index_rebuilds_reused : ∃ ops : List (Op ℚ),
    ops = [.upsert "a" ⟨[1, 2], [1, 1]⟩, .upsert "" ⟨[2], [3]⟩, .remove "a", .upsert "b" ⟨[2, 2], [1, 5]⟩] ∧
      (run ops).search ⟨[2], [1]⟩ = (run (upserts (documents ops).toList)).search ⟨[2], [1]⟩ :=
  ⟨_, rfl, (sparse_index_rebuilds (few_of_length (by simp)) (.refl _) rfl).2.2.2.1 ⟨[2], [1]⟩⟩

end Scores

/-! ## More documents than slots -/

section Wrap

variable {ext : String}

theorem upsert_new {W : Type} [AddCommGroup W] {idx : SparseInvertedIndex W} {sv : SparseVector W}
    (absent : idx.slotOf[ext]? = none) (full : idx.free = []) :
    idx.upsert ext sv = ({ idx with
      extOf := idx.extOf ++ [ext]
      dimsOf := idx.dimsOf ++ [[]]
      doclen := idx.doclen ++ [0]
      slotOf := idx.slotOf.insert ext (idx.extOf.length % 2 ^ 32)
      len := idx.len + 1 } : SparseInvertedIndex W).enter (idx.extOf.length % 2 ^ 32) sv.weights := by
  unfold upsert allocate
  rw [absent, full]

theorem upsert_free {W : Type} [AddCommGroup W] {idx : SparseInvertedIndex W} {sv : SparseVector W}
    (full : idx.free = []) : (idx.upsert ext sv).free = [] := by
  cases known : idx.slotOf[ext]? with
  | some slot =>
    unfold upsert
    rw [known]
    exact full
  | none =>
    rw [upsert_new known full]
    exact full

/-- Distinct ids. -/
def numbered (n : Nat) : String := String.ofList (List.replicate n 'a')

def manyOps (n : Nat) : List (Op ℚ) := upserts ((List.range n).map fun i => (numbered i, ⟨[], []⟩))

theorem numbered_inj {i j : Nat} (same : numbered i = numbered j) : i = j := by
  have lengths := congrArg (fun s => s.toList.length) same
  simpa [numbered] using lengths

theorem manyOps_succ (n : Nat) : manyOps (n + 1) = manyOps n ++ [.upsert (numbered n) ⟨[], []⟩] := by
  simp [manyOps, upserts, List.range_succ]

theorem mem_documents_many {n : Nat} (inside : ((documents (manyOps n))[ext]?).isSome = true) :
    ∃ i < n, ext = numbered i := by
  induction n with
  | zero => simp [manyOps, upserts, documents] at inside
  | succ n ih =>
    rw [manyOps_succ, documents_append, Op.onDocuments, get_insert] at inside
    split at inside
    · rename_i same
      exact ⟨n, Nat.lt_succ_self n, same.symm⟩
    · obtain ⟨i, low, isNumber⟩ := ih inside
      exact ⟨i, Nat.lt_succ_of_lt low, isNumber⟩

theorem documents_many_absent (n : Nat) : (documents (manyOps n))[numbered n]? = none := by
  refine Option.not_isSome_iff_eq_none.mp fun inside => ?_
  obtain ⟨i, low, same⟩ := mem_documents_many inside
  exact absurd (numbered_inj same) (Nat.ne_of_gt low)

theorem size_documents_many (n : Nat) : (documents (manyOps n)).size = n := by
  induction n with
  | zero => simp [manyOps, upserts, documents]
  | succ n ih => rw [manyOps_succ, documents_append, Op.onDocuments, size_insert (documents_many_absent n), ih]

theorem free_many (n : Nat) : (run (manyOps n)).free = [] := by
  induction n with
  | zero => rfl
  | succ n ih =>
    rw [manyOps_succ, run_append]
    exact upsert_free ih

/-- The slot of the next document after all slots are taken is that of the first. -/
theorem wraps {n : Nat} (all : n = 2 ^ 32) :
    (run (manyOps (n + 1))).slotOf[numbered n]? = some 0 ∧ (run (manyOps (n + 1))).extOf[0]? ≠ some (numbered n) := by
  have few : Few (manyOps n) := few_of_length (by simp [manyOps, upserts, all])
  have rep := represents_run few
  have length := rep.length_of_full (free_many n)
  rw [size_weighted, size_documents_many] at length
  have absent : (run (manyOps n)).slotOf[numbered n]? = none := by
    rw [← Option.not_isSome_iff_eq_none, rep.known, getElem?_weighted, documents_many_absent]
    simp
  have first : ∃ ext : String, (run (manyOps n)).slotOf[ext]? = some 0 := by
    by_contra none
    have isFree := (rep.free.2 0).mpr ⟨by omega, fun ext here => none ⟨ext, here⟩⟩
    rw [free_many] at isFree
    exact absurd isFree List.not_mem_nil
  obtain ⟨ext, here⟩ := first
  have zero : n % 2 ^ 32 = 0 := by omega
  rw [manyOps_succ, run_append, apply, upsert_new absent (free_many n), length, zero]
  refine ⟨ExtTreeMap.getElem?_insert_self, ?_⟩
  dsimp only [enter]
  rw [List.getElem?_append_left (by omega), rep.named here]
  intro same
  cases same
  cases absent.symm.trans here

theorem slots_run_out : ∃ (ops : List (Op ℚ)) (ext : String),
    (run ops).slotOf[ext]? = some 0 ∧ (run ops).extOf[0]? ≠ some ext :=
  ⟨_, _, wraps rfl⟩

end Wrap

end Quiver.Query.SparseInvertedIndex
