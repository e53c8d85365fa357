import Quiver.Base.OrderedScan
import Quiver.Base.Tally
import Mathlib.Data.List.Sort
import Mathlib.Data.String.Basic
import Mathlib.Tactic.Abel

/-!
The inverted index of sparse vectors. Documents have slots, which are used again when a document is
removed; the postings of a dimension give the weights by slot. Weights and lengths are exact.
-/

namespace Quiver.Query

open Std (ExtTreeMap)
open Tally Maps
open Std.ExtTreeMap (mem_iff_isSome_getElem? mem_keys mem_toList_iff_getElem?_eq_some)
open List (getElem?_set_ne getElem?_set_self length_set mem_cons mem_map)

/-- Dimensions and their weights, side by side. -/
structure SparseVector (W : Type) where
  indices : List Nat
  values : List W

/-- The weights by dimension; of equal dimensions the last one counts. -/
def SparseVector.weights {W : Type} (sv : SparseVector W) : ExtTreeMap Nat W :=
  entered ∅ (sv.indices.zip sv.values)

structure SparseInvertedIndex (W : Type) where
  postings : ExtTreeMap Nat (ExtTreeMap Nat W) := ∅
  dimsOf : List (List Nat) := []
  extOf : List String := []
  slotOf : ExtTreeMap String Nat := ∅
  /-- Freed slots, the last one first. -/
  free : List Nat := []
  doclen : List W := []
  totalLen : W
  len : Nat := 0

namespace SparseInvertedIndex

section Postings

variable {W : Type}

def post (slot : Nat) (postings : ExtTreeMap Nat (ExtTreeMap Nat W)) (e : Nat × W) : ExtTreeMap Nat (ExtTreeMap Nat W) :=
  postings.insert e.1 (((postings[e.1]?).getD ∅).insert slot e.2)

/-- Take a slot out of the postings of a dimension, which go when they are empty. -/
def unpost (slot : Nat) (postings : ExtTreeMap Nat (ExtTreeMap Nat W)) (dim : Nat) : ExtTreeMap Nat (ExtTreeMap Nat W) :=
  match postings[dim]? with
  | none => postings
  | some plist => if (plist.erase slot).isEmpty then postings.erase dim else postings.insert dim (plist.erase slot)

end Postings

section Maintain

variable {W : Type} [AddCommGroup W]

def new : SparseInvertedIndex W := { totalLen := 0 }

def clearPostings (idx : SparseInvertedIndex W) (slot : Nat) : SparseInvertedIndex W :=
  { idx with
    postings := ((idx.dimsOf[slot]?).getD []).foldl (unpost slot) idx.postings
    dimsOf := idx.dimsOf.set slot [] }

/-- A slot for a new id; slots are `u32`. -/
def allocate (idx : SparseInvertedIndex W) (ext : String) : SparseInvertedIndex W × Nat :=
  match idx.free with
  | slot :: free =>
    ({ idx with extOf := idx.extOf.set slot ext, free, slotOf := idx.slotOf.insert ext slot, len := idx.len + 1 }, slot)
  | [] =>
    let slot := idx.extOf.length % 2 ^ 32
    ({ idx with
        extOf := idx.extOf ++ [ext]
        dimsOf := idx.dimsOf ++ [[]]
        doclen := idx.doclen ++ [0]
        slotOf := idx.slotOf.insert ext slot
        len := idx.len + 1 }, slot)

/-- Enter the weights of a document in its slot. -/
def enter (idx : SparseInvertedIndex W) (slot : Nat) (weights : ExtTreeMap Nat W) : SparseInvertedIndex W :=
  { idx with
    totalLen := idx.totalLen - (idx.doclen[slot]?).getD 0 + tally id weights
    postings := weights.toList.foldl (post slot) idx.postings
    dimsOf := idx.dimsOf.set slot (weights.toList.map Prod.fst)
    doclen := idx.doclen.set slot (tally id weights) }

def upsert (idx : SparseInvertedIndex W) (ext : String) (sv : SparseVector W) : SparseInvertedIndex W :=
  match idx.slotOf[ext]? with
  | some slot => (idx.clearPostings slot).enter slot sv.weights
  | none => (idx.allocate ext).1.enter (idx.allocate ext).2 sv.weights

/-- Free a slot whose postings were cleared. -/
def release (idx : SparseInvertedIndex W) (slot : Nat) : SparseInvertedIndex W :=
  { idx with
    totalLen := idx.totalLen - (idx.doclen[slot]?).getD 0
    doclen := idx.doclen.set slot 0
    dimsOf := idx.dimsOf.set slot []
    extOf := idx.extOf.set slot ""
    free := slot :: idx.free
    len := idx.len - 1 }

/-- Remove a document and free its slot, and say whether it was there. -/
def remove (idx : SparseInvertedIndex W) (ext : String) : SparseInvertedIndex W × Bool :=
  match idx.slotOf[ext]? with
  | none => (idx, false)
  | some slot => (({ idx with slotOf := idx.slotOf.erase ext }.clearPostings slot).release slot, true)

end Maintain

section Score

variable {W : Type} [Field W] [LinearOrder W]

/-- The order of results: by score, the highest first, then by id. -/
def Ranks (a b : String × W) : Prop := b.2 < a.2 ∨ a.2 = b.2 ∧ a.1 ≤ b.1

instance (a b : String × W) : Decidable (Ranks a b) := inferInstanceAs (Decidable (_ ∨ _))

def ranked (scores : List (String × W)) : List (String × W) :=
  (scores.filter fun e => decide (0 < e.2)).insertionSort Ranks

/-- A term adds to the slots of its postings, by the number of these. -/
def addPostings (idx : SparseInvertedIndex W) (dim : Nat) (term : Nat → Nat → W → W) (scores : ExtTreeMap Nat W) :
    ExtTreeMap Nat W :=
  match idx.postings[dim]? with
  | none => scores
  | some plist => gather scores (plist.toList.map fun e => (e.1, term plist.size e.1 e.2))

def scored {T : Type} (idx : SparseInvertedIndex W) (dim : T → Nat) (term : T → Nat → Nat → W → W) (terms : List T) :
    ExtTreeMap Nat W :=
  terms.foldl (fun scores t => idx.addPostings (dim t) (term t) scores) ∅

def results (idx : SparseInvertedIndex W) (scores : ExtTreeMap Nat W) : List (String × W) :=
  ranked (scores.toList.map fun e => ((idx.extOf[e.1]?).getD "", e.2))

def search (idx : SparseInvertedIndex W) (query : SparseVector W) : List (String × W) :=
  idx.results (idx.scored Prod.fst (fun t _ _ w => t.2 * w) query.weights.toList)

/-- What a term adds to the score of a document: by its frequency there, the number of documents that
have it, and the length of the document against the average. -/
def bm25Term (ln : W → W) (k1 b n avgdl : W) (df : Nat) (dl tf : W) : W :=
  ln (1 + (n - df + 1 / 2) / (df + 1 / 2)) * (tf * (k1 + 1)) / (tf + k1 * (1 - b + b * (dl / avgdl)))

/-- A repeated term counts once. -/
def bm25Search (ln : W → W) (minPositive : W) (idx : SparseInvertedIndex W) (terms : List Nat) (k1 b : W) :
    List (String × W) :=
  if idx.len = 0 then []
  else
    let avgdl := max (idx.totalLen / idx.len) minPositive
    idx.results (idx.scored (fun t => t) (fun _ df slot tf =>
      bm25Term ln k1 b idx.len avgdl df ((idx.doclen[slot]?).getD 0) tf) terms.eraseDups)

end Score

section Posted

variable {W : Type}

/-- The weight that a slot has in the postings of a dimension. -/
def posted (postings : ExtTreeMap Nat (ExtTreeMap Nat W)) (dim slot : Nat) : Option W :=
  (postings[dim]?).bind fun plist => plist[slot]?

theorem posted_post (postings : ExtTreeMap Nat (ExtTreeMap Nat W)) (slot : Nat) (e : Nat × W) (d s : Nat) :
    posted (post slot postings e) d s = if e.1 = d ∧ slot = s then some e.2 else posted postings d s := by
  unfold posted post
  rw [get_insert]
  by_cases sameDim : e.1 = d
  · subst sameDim
    rw [if_pos rfl, Option.bind_some, get_insert]
    by_cases sameSlot : slot = s
    · rw [if_pos sameSlot, if_pos ⟨rfl, sameSlot⟩]
    · rw [if_neg sameSlot, if_neg fun both => sameSlot both.2]
      cases postings[e.1]? with
      | none => simp
      | some plist => rfl
  · rw [if_neg sameDim, if_neg fun both => sameDim both.1]

/-- Entering weights changes the postings of the slot only, in the dimensions that are entered. -/
theorem posted_entered (slot : Nat) (entries : List (Nat × W)) (once : entries.Pairwise fun a b => a.1 ≠ b.1)
    (postings : ExtTreeMap Nat (ExtTreeMap Nat W)) (d s : Nat) (x : W) :
    posted (entries.foldl (post slot) postings) d s = some x ↔
      if slot = s ∧ d ∈ entries.map Prod.fst then (d, x) ∈ entries else posted postings d s = some x := by
  induction entries generalizing postings with
  | nil => simp
  | cons e entries ih =>
    obtain ⟨first, later⟩ := List.pairwise_cons.mp once
    rw [List.foldl_cons, ih later, posted_post]
    obtain ⟨dim, weight⟩ := e
    by_cases sameSlot : slot = s
    · by_cases inside : d ∈ entries.map Prod.fst
      · obtain ⟨⟨d', y⟩, member, rfl⟩ := mem_map.mp inside
        have differ : d' ≠ dim := fun same => first (d', y) member same.symm
        simp [sameSlot, inside, differ]
      · have notMember : (d, x) ∉ entries := fun member => inside (List.mem_map_of_mem member)
        by_cases sameDim : dim = d
        · subst sameDim
          simp [sameSlot, inside, notMember, eq_comm]
        · simp [sameSlot, inside, sameDim, Ne.symm sameDim]
    · simp [sameSlot]

theorem posted_unpost (postings : ExtTreeMap Nat (ExtTreeMap Nat W)) (slot dim d s : Nat) :
    posted (unpost slot postings dim) d s = if dim = d ∧ slot = s then none else posted postings d s := by
  unfold posted unpost
  cases held : postings[dim]? with
  | none =>
    by_cases sameDim : dim = d
    · subst sameDim
      simp [held]
    · simp [sameDim]
  | some plist =>
    dsimp only
    by_cases sameDim : dim = d
    · subst sameDim
      have erased : (if (plist.erase slot).isEmpty = true then postings.erase dim
          else postings.insert dim (plist.erase slot))[dim]?.bind (fun plist => plist[s]?) = (plist.erase slot)[s]? := by
        split
        · rename_i empty
          rw [get_erase, if_pos rfl, ExtTreeMap.isEmpty_iff.mp empty]
          simp
        · rw [get_insert, if_pos rfl, Option.bind_some]
      rw [erased, get_erase, held, Option.bind_some]
      by_cases sameSlot : slot = s <;> simp [sameSlot]
    · have kept : (if (plist.erase slot).isEmpty = true then postings.erase dim
          else postings.insert dim (plist.erase slot))[d]? = postings[d]? := by
        split
        · rw [get_erase, if_neg sameDim]
        · rw [get_insert, if_neg sameDim]
      rw [kept, if_neg fun both => sameDim both.1]

theorem posted_cleared (slot : Nat) (dims : List Nat) (postings : ExtTreeMap Nat (ExtTreeMap Nat W)) (d s : Nat) :
    posted (dims.foldl (unpost slot) postings) d s = if d ∈ dims ∧ slot = s then none else posted postings d s := by
  induction dims generalizing postings with
  | nil => simp
  | cons dim dims ih =>
    rw [List.foldl_cons, ih, posted_unpost]
    by_cases sameSlot : slot = s
    · by_cases inside : d ∈ dims
      · simp [sameSlot, inside]
      · by_cases sameDim : d = dim
        · simp [sameSlot, sameDim]
        · simp [sameSlot, inside, sameDim, Ne.symm sameDim]
    · simp [sameSlot]

variable {postings : ExtTreeMap Nat (ExtTreeMap Nat W)} {dim : Nat} {plist : ExtTreeMap Nat W}
  (nonempty : ∀ {dim : Nat} {plist : ExtTreeMap Nat W}, postings[dim]? = some plist → plist.isEmpty = false)
include nonempty

theorem nonempty_post (slot : Nat) (e : Nat × W) (held : (post slot postings e)[dim]? = some plist) :
    plist.isEmpty = false := by
  unfold post at held
  obtain ⟨_, rfl⟩ | ⟨_, held⟩ := of_insert held
  · simp
  · exact nonempty held

theorem nonempty_entered (slot : Nat) (entries : List (Nat × W))
    (held : (entries.foldl (post slot) postings)[dim]? = some plist) : plist.isEmpty = false := by
  induction entries generalizing postings with
  | nil => exact nonempty held
  | cons e entries ih => exact ih (nonempty_post nonempty slot e) held

theorem nonempty_cleared (slot : Nat) (dims : List Nat)
    (held : (dims.foldl (unpost slot) postings)[dim]? = some plist) : plist.isEmpty = false := by
  induction dims generalizing postings with
  | nil => exact nonempty held
  | cons d dims ih =>
    refine ih (fun {dim plist} held => ?_) held
    unfold unpost at held
    split at held
    · exact nonempty held
    · split at held
      · exact nonempty (of_erase held).2
      · rename_i left
        obtain ⟨_, rfl⟩ | ⟨_, held⟩ := of_insert held
        · exact Bool.not_eq_true _ ▸ left
        · exact nonempty held

end Posted

section Represent

variable {W : Type} [AddCommGroup W] {idx : SparseInvertedIndex W} {m : ExtTreeMap String (ExtTreeMap Nat W)}
variable {ext : String} {slot : Nat} {w : ExtTreeMap Nat W}

/-- No document has the slot. -/
def Vacant (idx : SparseInvertedIndex W) (slot : Nat) : Prop := ∀ ext : String, idx.slotOf[ext]? ≠ some slot

/-- What the index keeps of a document in its slot. -/
structure Holds (idx : SparseInvertedIndex W) (slot : Nat) (w : ExtTreeMap Nat W) : Prop where
  dims : ∃ dims, idx.dimsOf[slot]? = some dims ∧ ∀ d, d ∈ dims ↔ (w[d]?).isSome = true
  doclen : idx.doclen[slot]? = some (tally id w)
  posted : ∀ d, posted idx.postings d slot = w[d]?

/-- The index holds the documents: each in a slot of its own, and nothing in the other slots, which are free. -/
structure Represents (idx : SparseInvertedIndex W) (m : ExtTreeMap String (ExtTreeMap Nat W)) : Prop where
  lengths : idx.dimsOf.length = idx.extOf.length ∧ idx.doclen.length = idx.extOf.length
  known : ∀ ext : String, (idx.slotOf[ext]?).isSome = (m[ext]?).isSome
  named : ∀ {ext : String} {slot : Nat}, idx.slotOf[ext]? = some slot → idx.extOf[slot]? = some ext
  holds : ∀ {ext : String} {slot : Nat} {w : ExtTreeMap Nat W}, idx.slotOf[ext]? = some slot → m[ext]? = some w →
    idx.Holds slot w
  vacant : ∀ {slot : Nat}, idx.Vacant slot → ∀ d, SparseInvertedIndex.posted idx.postings d slot = none
  free : idx.free.Nodup ∧ ∀ slot, slot ∈ idx.free ↔ slot < idx.extOf.length ∧ idx.Vacant slot
  blank : ∀ slot ∈ idx.free, idx.Holds slot ∅
  nonempty : ∀ {dim : Nat} {plist : ExtTreeMap Nat W}, idx.postings[dim]? = some plist → plist.isEmpty = false
  len : idx.len = m.size
  total : idx.totalLen = tally (tally id) m

/-- The index is open at a slot: it holds the documents, and nothing yet, or nothing any more, of the one
that the slot is for. -/
structure Opened (idx : SparseInvertedIndex W) (m : ExtTreeMap String (ExtTreeMap Nat W)) (ext : String) (slot : Nat) : Prop where
  lengths : idx.dimsOf.length = idx.extOf.length ∧ idx.doclen.length = idx.extOf.length
  here : idx.slotOf[ext]? = some slot
  absent : m[ext]? = none
  known : ∀ other : String, other ≠ ext → (idx.slotOf[other]?).isSome = (m[other]?).isSome
  named : ∀ {other : String} {s : Nat}, idx.slotOf[other]? = some s → idx.extOf[s]? = some other
  holds : ∀ {other : String} {s : Nat} {w : ExtTreeMap Nat W}, other ≠ ext → idx.slotOf[other]? = some s →
    m[other]? = some w → idx.Holds s w
  vacant : ∀ {s : Nat}, idx.Vacant s ∨ s = slot → ∀ d, posted idx.postings d s = none
  free : idx.free.Nodup ∧ ∀ s, s ∈ idx.free ↔ s < idx.extOf.length ∧ idx.Vacant s
  blank : ∀ s ∈ idx.free, idx.Holds s ∅
  nonempty : ∀ {dim : Nat} {plist : ExtTreeMap Nat W}, idx.postings[dim]? = some plist → plist.isEmpty = false
  len : idx.len = m.size + 1
  total : idx.totalLen = (idx.doclen[slot]?).getD 0 + tally (tally id) m

namespace Opened

section

variable (opened : idx.Opened m ext slot)
include opened

theorem bound : slot < idx.extOf.length :=
  (List.getElem?_eq_some_iff.mp (opened.named opened.here)).1

theorem apart {other : String} {s : Nat} (differ : other ≠ ext)
    (there : idx.slotOf[other]? = some s) : s ≠ slot := by
  rintro rfl
  exact differ (Option.some.inj ((opened.named there).symm.trans (opened.named opened.here)))

theorem enter (w : ExtTreeMap Nat W) :
    (idx.enter slot w).Represents (m.insert ext w) := by
  have bound := opened.bound
  have once : w.toList.Pairwise fun a b => a.1 ≠ b.1 :=
    List.pairwise_map.mp (nodup_fst w)
  have elsewhere : ∀ d s, s ≠ slot → posted (idx.enter slot w).postings d s = posted idx.postings d s := by
    intro d s differ
    refine Option.ext fun x => ?_
    change posted (w.toList.foldl (post slot) idx.postings) d s = some x ↔ posted idx.postings d s = some x
    rw [posted_entered slot w.toList once, if_neg fun both => differ both.1.symm]
  have inSlot : ∀ d, posted (idx.enter slot w).postings d slot = w[d]? := by
    intro d
    refine Option.ext fun x => ?_
    change posted (w.toList.foldl (post slot) idx.postings) d slot = some x ↔ w[d]? = some x
    rw [posted_entered slot w.toList once, opened.vacant (.inr rfl) d, mem_toList_iff_getElem?_eq_some]
    by_cases inside : d ∈ w.toList.map Prod.fst
    · rw [if_pos ⟨rfl, inside⟩]
    · rw [if_neg fun both => inside both.2]
      have none : w[d]? = none := by
        cases held : w[d]? with
        | none => rfl
        | some y =>
          exact absurd (List.mem_map_of_mem (mem_toList_iff_getElem?_eq_some.mpr held)) inside
      rw [none]
  have kept : ∀ {s : Nat} {v : ExtTreeMap Nat W}, s ≠ slot → idx.Holds s v → (idx.enter slot w).Holds s v := by
    intro s v differ holds
    obtain ⟨dims, isDims, same⟩ := holds.dims
    refine ⟨⟨dims, ?_, same⟩, ?_, fun d => (elsewhere d s differ).trans (holds.posted d)⟩
    · exact (getElem?_set_ne (Ne.symm differ)).trans isDims
    · exact (getElem?_set_ne (Ne.symm differ)).trans holds.doclen
  have notFree : ∀ s ∈ idx.free, s ≠ slot := by
    rintro s member rfl
    exact ((opened.free.2 s).mp member).2 ext opened.here
  refine ⟨?_, fun other => ?_, fun there => opened.named there, fun {other s v} there held => ?_, fun {s} vacant d => ?_,
    opened.free, fun s member => kept (notFree s member) (opened.blank s member),
    nonempty_entered opened.nonempty slot w.toList, ?_, ?_⟩
  · simp only [SparseInvertedIndex.enter, length_set]
    exact opened.lengths
  · rw [get_insert]
    split
    · rename_i same
      subst same
      exact congrArg Option.isSome opened.here
    · rename_i differ
      exact opened.known other (Ne.symm differ)
  · obtain ⟨rfl, rfl⟩ | ⟨differ, held⟩ := of_insert held
    · obtain rfl : s = slot := Option.some.inj (there.symm.trans opened.here)
      refine ⟨⟨w.toList.map Prod.fst, ?_, fun d => ?_⟩, ?_, inSlot⟩
      · exact getElem?_set_self (by rw [opened.lengths.1]; exact bound)
      · rw [ExtTreeMap.map_fst_toList_eq_keys, mem_keys, mem_iff_isSome_getElem?]
      · exact getElem?_set_self (by rw [opened.lengths.2]; exact bound)
    · exact kept (opened.apart (Ne.symm differ) there) (opened.holds (Ne.symm differ) there held)
  · have differ : s ≠ slot := by
      rintro rfl
      exact vacant ext opened.here
    rw [elsewhere d s differ]
    exact opened.vacant (.inl vacant) d
  · rw [size_insert opened.absent]
    exact opened.len
  · rw [tally_insert opened.absent]
    change idx.totalLen - (idx.doclen[slot]?).getD 0 + tally id w = _
    rw [opened.total]
    abel

theorem release :
    ({ idx with slotOf := idx.slotOf.erase ext }.release slot).Represents m := by
  have bound := opened.bound
  have lookup : ∀ {other : String} {s : Nat}, (idx.slotOf.erase ext)[other]? = some s →
      other ≠ ext ∧ idx.slotOf[other]? = some s := by
    intro other s there
    exact (of_erase there).imp_left Ne.symm
  have kept : ∀ {s : Nat} {v : ExtTreeMap Nat W}, s ≠ slot → idx.Holds s v →
      ({ idx with slotOf := idx.slotOf.erase ext }.release slot).Holds s v := by
    intro s v differ holds
    obtain ⟨dims, isDims, same⟩ := holds.dims
    exact ⟨⟨dims, (getElem?_set_ne (Ne.symm differ)).trans isDims, same⟩,
      (getElem?_set_ne (Ne.symm differ)).trans holds.doclen, holds.posted⟩
  have vacancy : ∀ s, (∀ other : String, (idx.slotOf.erase ext)[other]? ≠ some s) ↔ idx.Vacant s ∨ s = slot := by
    intro s
    constructor
    · intro vacant
      by_cases same : s = slot
      · exact .inr same
      · refine .inl fun other there => vacant other ?_
        rw [get_erase, if_neg]
        · exact there
        · rintro rfl
          exact same (Option.some.inj (there.symm.trans opened.here))
    · rintro (vacant | rfl) other there
      · exact vacant other (lookup there).2
      · exact opened.apart (lookup there).1 (lookup there).2 rfl
  have notFree : slot ∉ idx.free := fun member => ((opened.free.2 slot).mp member).2 ext opened.here
  refine ⟨?_, fun other => ?_, fun {other s} there => ?_, fun {other s v} there held => ?_, fun {s} vacant d => ?_,
    ⟨List.nodup_cons.mpr ⟨notFree, opened.free.1⟩, fun s => ?_⟩, fun s member => ?_, opened.nonempty, ?_, ?_⟩
  · simp only [SparseInvertedIndex.release, length_set]
    exact opened.lengths
  · change ((idx.slotOf.erase ext)[other]?).isSome = _
    rw [get_erase]
    split
    · rename_i same
      rw [← same, opened.absent]
      rfl
    · rename_i differ
      exact opened.known other (Ne.symm differ)
  · obtain ⟨differ, there⟩ := lookup there
    exact (getElem?_set_ne (Ne.symm (opened.apart differ there))).trans (opened.named there)
  · obtain ⟨differ, there⟩ := lookup there
    exact kept (opened.apart differ there) (opened.holds differ there held)
  · exact opened.vacant ((vacancy s).mp vacant) d
  · change s ∈ slot :: idx.free ↔ s < (idx.extOf.set slot "").length ∧ (∀ other : String, (idx.slotOf.erase ext)[other]? ≠ some s)
    rw [vacancy, length_set, mem_cons, opened.free.2 s]
    constructor
    · rintro (rfl | ⟨low, vacant⟩)
      · exact ⟨bound, .inr rfl⟩
      · exact ⟨low, .inl vacant⟩
    · rintro ⟨low, vacant | rfl⟩
      · exact .inr ⟨low, vacant⟩
      · exact .inl rfl
  · obtain rfl | left := mem_cons.mp member
    · refine ⟨⟨[], getElem?_set_self (by rw [opened.lengths.1]; exact bound), fun d => by simp⟩, ?_, fun d => ?_⟩
      · exact getElem?_set_self (by rw [opened.lengths.2]; exact bound)
      · have gone := opened.vacant (.inr rfl) d
        exact gone.trans (by simp)
    · refine kept ?_ (opened.blank s left)
      rintro rfl
      exact notFree left
  · change idx.len - 1 = m.size
    rw [opened.len, Nat.add_sub_cancel]
  · change idx.totalLen - (idx.doclen[slot]?).getD 0 = _
    rw [opened.total]
    abel

end

end Opened

namespace Represents

theorem bound (rep : idx.Represents m) (here : idx.slotOf[ext]? = some slot) : slot < idx.extOf.length :=
  (List.getElem?_eq_some_iff.mp (rep.named here)).1

theorem document (rep : idx.Represents m) (here : idx.slotOf[ext]? = some slot) : ∃ w, m[ext]? = some w := by
  have known := rep.known ext
  rw [here] at known
  exact Option.isSome_iff_exists.mp known.symm

theorem clear (rep : idx.Represents m) (here : idx.slotOf[ext]? = some slot) :
    (idx.clearPostings slot).Opened (m.erase ext) ext slot := by
  obtain ⟨w, held⟩ := rep.document here
  have holds := rep.holds here held
  obtain ⟨dims, isDims, same⟩ := holds.dims
  have isPosted : ∀ d s, posted (idx.clearPostings slot).postings d s = if s = slot then none else posted idx.postings d s := by
    intro d s
    change posted (((idx.dimsOf[slot]?).getD []).foldl (unpost slot) idx.postings) d s = _
    rw [isDims, Option.getD_some, posted_cleared]
    by_cases isSlot : s = slot
    · subst isSlot
      by_cases inside : d ∈ dims
      · rw [if_pos ⟨inside, rfl⟩, if_pos rfl]
      · rw [if_neg fun both => inside both.1, if_pos rfl, holds.posted d]
        exact Option.not_isSome_iff_eq_none.mp fun some => inside ((same d).mpr some)
    · rw [if_neg fun both => isSlot both.2.symm, if_neg isSlot]
  have kept : ∀ {s : Nat} {v : ExtTreeMap Nat W}, s ≠ slot → idx.Holds s v → (idx.clearPostings slot).Holds s v := by
    intro s v differ there
    obtain ⟨dims', isDims', same'⟩ := there.dims
    refine ⟨⟨dims', (getElem?_set_ne (Ne.symm differ)).trans isDims', same'⟩, there.doclen, fun d => ?_⟩
    rw [isPosted, if_neg differ]
    exact there.posted d
  have lookup : ∀ other, other ≠ ext → (m.erase ext)[other]? = m[other]? := fun other differ => by
    rw [get_erase, if_neg (Ne.symm differ)]
  have absent : (m.erase ext)[ext]? = none := by rw [get_erase, if_pos rfl]
  refine ⟨?_, here, absent, fun other differ => ?_, fun there => rep.named there, fun {other s v} differ there held' => ?_,
    fun {s} vacant d => ?_, rep.free, fun s member => ?_, nonempty_cleared rep.nonempty slot _, ?_, ?_⟩
  · refine ⟨?_, rep.lengths.2⟩
    change (idx.dimsOf.set slot []).length = _
    rw [length_set]
    exact rep.lengths.1
  · rw [lookup other differ]
    exact rep.known other
  · rw [lookup other differ] at held'
    refine kept ?_ (rep.holds there held')
    rintro rfl
    exact differ (Option.some.inj ((rep.named there).symm.trans (rep.named here)))
  · rw [isPosted]
    split
    · rfl
    · rename_i differ
      exact rep.vacant (vacant.resolve_right differ) d
  · refine kept ?_ (rep.blank s member)
    rintro rfl
    exact ((rep.free.2 s).mp member).2 ext here
  · exact rep.len.trans (size_erase held)
  · change idx.totalLen = (idx.doclen[slot]?).getD 0 + _
    rw [holds.doclen, rep.total, tally_erase held]
    rfl

theorem length_of_full (rep : idx.Represents m) (full : idx.free = []) : idx.extOf.length = m.size := by
  have once : (idx.slotOf.toList.map Prod.snd).Nodup := by
    refine nodup_map fun inside inside' same => ?_
    dsimp only at same
    subst same
    exact Option.some.inj ((rep.named inside).symm.trans (rep.named inside'))
  have slots : (idx.slotOf.toList.map Prod.snd).Perm (List.range idx.extOf.length) := by
    refine (List.perm_ext_iff_of_nodup once List.nodup_range).mpr fun s => ?_
    rw [List.mem_range, mem_map]
    constructor
    · rintro ⟨⟨ext, _⟩, inside, rfl⟩
      exact rep.bound (mem_toList_iff_getElem?_eq_some.mp inside)
    · intro low
      have taken : ¬idx.Vacant s := fun vacant => by
        have free := (rep.free.2 s).mpr ⟨low, vacant⟩
        rw [full] at free
        cases free
      simp only [Vacant, not_forall, not_not] at taken
      obtain ⟨ext, there⟩ := taken
      exact ⟨(ext, s), mem_toList_iff_getElem?_eq_some.mpr there, rfl⟩
  rw [← List.length_range (n := idx.extOf.length), ← slots.length_eq, List.length_map, ExtTreeMap.length_toList,
    size_eq rep.known]

theorem getElem?_append_of_some {α : Type} {l : List α} {i : Nat} {a b : α} (here : l[i]? = some a) :
    (l ++ [b])[i]? = some a := by
  rw [List.getElem?_append_left (List.getElem?_eq_some_iff.mp here).1]
  exact here

theorem unknown (rep : idx.Represents m) (absent : m[ext]? = none) : idx.slotOf[ext]? = none := by
  have known := rep.known ext
  rw [absent] at known
  exact Option.not_isSome_iff_eq_none.mp (by rw [known]; exact Bool.false_ne_true)

omit [AddCommGroup W] in
theorem vacant_insert (unknown : idx.slotOf[ext]? = none) (free : idx.Vacant slot) (s : Nat) :
    (∀ other : String, (idx.slotOf.insert ext slot)[other]? ≠ some s) ↔ idx.Vacant s ∧ s ≠ slot := by
  constructor
  · intro vacant
    refine ⟨fun other there => vacant other ?_, ?_⟩
    · rw [get_insert, if_neg]
      · exact there
      · rintro rfl
        rw [unknown] at there
        cases there
    · rintro rfl
      exact vacant ext (by rw [get_insert, if_pos rfl])
  · rintro ⟨vacant, differ⟩ other there
    obtain ⟨_, isSlot⟩ | ⟨_, there⟩ := of_insert there
    · exact differ isSlot.symm
    · exact vacant other there

theorem opens (rep : idx.Represents m) (absent : m[ext]? = none) (vacant : idx.Vacant slot) {idx' : SparseInvertedIndex W}
    (slotOf : idx'.slotOf = idx.slotOf.insert ext slot) (postings : idx'.postings = idx.postings)
    (kept : ∀ {s : Nat} {w : ExtTreeMap Nat W}, idx.Holds s w → idx'.Holds s w)
    (lengths : idx'.dimsOf.length = idx'.extOf.length ∧ idx'.doclen.length = idx'.extOf.length)
    (fresh : idx'.extOf[slot]? = some ext)
    (named : ∀ {other : String} {s : Nat}, s ≠ slot → idx.extOf[s]? = some other → idx'.extOf[s]? = some other)
    (free : idx'.free.Nodup ∧ ∀ s, s ∈ idx'.free ↔ s < idx'.extOf.length ∧ idx.Vacant s ∧ s ≠ slot)
    (fewer : ∀ s ∈ idx'.free, s ∈ idx.free) (len : idx'.len = idx.len + 1) (totalLen : idx'.totalLen = idx.totalLen)
    (blank : idx'.doclen[slot]? = some 0) : idx'.Opened m ext slot := by
  have vacancy : ∀ s, idx'.Vacant s ↔ idx.Vacant s ∧ s ≠ slot := by
    intro s
    rw [Vacant, slotOf]
    exact vacant_insert (rep.unknown absent) vacant s
  refine ⟨lengths, by rw [slotOf, get_insert, if_pos rfl], absent, fun other differ => ?_, fun {other s} there => ?_,
    fun {other s w} differ there held => ?_, fun {s} gone d => ?_, ⟨free.1, fun s => ?_⟩,
    fun s member => kept (rep.blank s (fewer s member)), ?_, by rw [len, rep.len], ?_⟩
  · rw [slotOf, get_insert, if_neg (Ne.symm differ)]
    exact rep.known other
  · rw [slotOf] at there
    obtain ⟨rfl, rfl⟩ | ⟨_, before⟩ := of_insert there
    · exact fresh
    · refine named ?_ (rep.named before)
      rintro rfl
      exact vacant other before
  · rw [slotOf] at there
    obtain ⟨same, _⟩ | ⟨_, there⟩ := of_insert there
    · exact absurd same.symm differ
    · exact kept (rep.holds there held)
  · rw [postings]
    obtain gone | rfl := gone
    · exact rep.vacant ((vacancy s).mp gone).1 d
    · exact rep.vacant vacant d
  · rw [vacancy]
    exact free.2 s
  · rw [postings]
    exact rep.nonempty
  · rw [blank, totalLen, rep.total, Option.getD_some, zero_add]

theorem allocate (rep : idx.Represents m) (absent : m[ext]? = none) (few : m.size < 2 ^ 32) :
    (idx.allocate ext).1.Opened m ext (idx.allocate ext).2 := by
  unfold SparseInvertedIndex.allocate
  split
  · rename_i slot free isFree
    have member : slot ∈ idx.free := by rw [isFree]; exact List.mem_cons_self
    obtain ⟨low, vacant⟩ := (rep.free.2 slot).mp member
    have nodup := rep.free.1
    rw [isFree, List.nodup_cons] at nodup
    refine rep.opens absent vacant rfl rfl (fun holds => ⟨holds.dims, holds.doclen, holds.posted⟩) ?_
      (getElem?_set_self low) (fun differ named => (getElem?_set_ne (Ne.symm differ)).trans named)
      ⟨nodup.2, fun s => ?_⟩ (fun s left => by rw [isFree]; exact List.mem_cons_of_mem _ left) rfl rfl ?_
    · simp only [length_set]
      exact rep.lengths
    · have before := rep.free.2 s
      rw [isFree, mem_cons] at before
      rw [length_set]
      constructor
      · intro left
        obtain ⟨low, gone⟩ := before.mp (.inr left)
        refine ⟨low, gone, ?_⟩
        rintro rfl
        exact nodup.1 left
      · rintro ⟨low, gone, differ⟩
        exact (before.mpr ⟨low, gone⟩).resolve_left differ
    · rw [(rep.blank slot member).doclen, tally_empty]
  · rename_i full
    have isSlot : idx.extOf.length % 2 ^ 32 = idx.extOf.length := by
      rw [rep.length_of_full full]
      exact Nat.mod_eq_of_lt few
    rw [isSlot]
    have vacant : idx.Vacant idx.extOf.length := fun other there => Nat.lt_irrefl _ (rep.bound there)
    refine rep.opens absent vacant rfl rfl (fun holds => ?_) ?_ List.getElem?_concat_length
      (fun _ named => getElem?_append_of_some named) ⟨rep.free.1, fun s => ?_⟩ (fun _ member => member) rfl rfl ?_
    · obtain ⟨dims, isDims, same⟩ := holds.dims
      exact ⟨⟨dims, getElem?_append_of_some isDims, same⟩, getElem?_append_of_some holds.doclen, holds.posted⟩
    · simp only [List.length_append, List.length_singleton, rep.lengths, and_self]
    · rw [rep.free.2 s, List.length_append, List.length_singleton]
      constructor
      · rintro ⟨low, gone⟩
        exact ⟨Nat.lt_succ_of_lt low, gone, Nat.ne_of_lt low⟩
      · rintro ⟨low, gone, differ⟩
        exact ⟨Nat.lt_of_le_of_ne (Nat.lt_succ_iff.mp low) differ, gone⟩
    · rw [← rep.lengths.2]
      exact List.getElem?_concat_length

end Represents

end Represent

end SparseInvertedIndex

end Quiver.Query
