import Mathlib.Data.List.Infix
import Mathlib.Data.List.Nodup
import Mathlib.Algebra.Order.BigOperators.Group.List
import Mathlib.Algebra.Order.Ring.Nat
import Std.Data.ExtTreeMap.Lemmas

/-!
Copying a directory tree by walking it. A directory is listed after the destination was created, so
a destination below the source is copied without end. Every other walk ends, and the destination
then holds what the source held.
-/

namespace Quiver.TreeCopy

open Std (ExtTreeMap TransOrd LawfulEqOrd)
open Std.ExtTreeMap (getElem?_insert mem_iff_isSome_getElem? mem_keys)
open List (append_assoc append_nil mem_cons mem_cons_self prefix_append prefix_refl singleton_append)

inductive Node (C : Type) where
  | dir
  | file (content : C)
  deriving DecidableEq, Repr

variable {N : Type} [Ord N] [TransOrd N] [LawfulEqOrd N] [DecidableEq N] {C : Type}

/-- What exists, by the names on the way to it. -/
abbrev Tree (N : Type) [Ord N] (C : Type) := ExtTreeMap (List N) (Node C)

def Tree.entries (t : Tree N C) (dir : List N) : List N :=
  t.keys.filterMap fun p => if p.dropLast = dir then p.getLast? else none

/-- Create a directory and those above it, unless they exist. -/
def Tree.mkdirAll (t : Tree N C) (dir : List N) : Tree N C :=
  dir.inits.foldl (fun t p => if p ∈ t then t else t.insert p .dir) t

/-- The tree so far, and how much was copied. -/
structure Copied (N : Type) [Ord N] (C : Type) where
  tree : Tree N C
  files : Nat
  bytes : Nat

variable (size : C → Nat)

/-- One entry of a directory, with a walk for the directories in it. -/
def copyEntry (walk : Tree N C → List N → List N → Option (Copied N C)) (src dst : List N)
    (done : Copied N C) (name : N) : Option (Copied N C) :=
  match done.tree[src ++ [name]]? with
  | some .dir => (walk done.tree (src ++ [name]) (dst ++ [name])).map fun c =>
    ⟨c.tree, done.files + c.files, done.bytes + c.bytes⟩
  | some (.file content) =>
    some ⟨done.tree.insert (dst ++ [name]) (.file content), done.files + 1, done.bytes + size content⟩
  | none => some done

/-- Copy the directory `src` to `dst`, to a depth of `fuel`; none when that is not enough. -/
def copyTree : Nat → Tree N C → List N → List N → Option (Copied N C)
  | 0, _, _, _ => none
  | fuel + 1, t, src, dst =>
    ((t.mkdirAll dst).entries src).foldlM (copyEntry size (copyTree fuel) src dst) ⟨t.mkdirAll dst, 0, 0⟩

variable {size} {t : Tree N C} {src dst p q : List N} {name : N} {fuel : Nat} {c : Copied N C}

theorem Tree.mem_entries : name ∈ t.entries src ↔ src ++ [name] ∈ t := by
  simp only [Tree.entries, List.mem_filterMap, mem_keys]
  constructor
  · rintro ⟨p, present, is⟩
    split at is
    case isTrue parent =>
      rwa [← parent, List.dropLast_append_getLast? name is]
    case isFalse => contradiction
  · intro present
    exact ⟨_, present, by simp⟩

omit [LawfulEqOrd N] in
theorem Tree.entries_nodup : (t.entries src).Nodup := by
  refine ExtTreeMap.nodup_keys.filterMap fun p q name first second => ?_
  simp only [Option.mem_def] at first second
  split at first
  case isFalse => contradiction
  split at second
  case isFalse => contradiction
  rename_i here there
  rw [← List.dropLast_append_getLast? name first, ← List.dropLast_append_getLast? name second, here, there]

theorem Tree.getElem?_mkdirAll :
    (t.mkdirAll dst)[p]? = if p <+: dst then some (t[p]?.getD .dir) else t[p]? := by
  have each : ∀ (ps : List (List N)) (t : Tree N C),
      (ps.foldl (fun t p => if p ∈ t then t else t.insert p .dir) t)[p]? =
        if p ∈ ps then some (t[p]?.getD .dir) else t[p]? := by
    intro ps
    induction ps with
    | nil => simp
    | cons first ps ih =>
      intro t
      rw [List.foldl_cons, ih]
      by_cases here : p = first
      · subst here
        by_cases present : p ∈ t
        · simp [present]
        · simp [present]
      · have other : ∀ node : Node C, (t.insert first node)[p]? = t[p]? := fun node => by
          rw [getElem?_insert, if_neg (by simpa using Ne.symm here)]
        by_cases present : first ∈ t <;> simp [present, here, other]
  rw [Tree.mkdirAll, each]
  simp [List.mem_inits]

omit [Ord N] [TransOrd N] [LawfulEqOrd N] [DecidableEq N] in
theorem not_append_prefix : ¬ dst ++ name :: q <+: dst := fun under => by
  have longer := under.length_le
  simp only [List.length_append, List.length_cons] at longer
  omega

section Fold

variable {S E : Type} {step step' : S → E → Option S} {a b : S} {e : E} {es : List E}

theorem foldlM_cons_eq_some : (e :: es).foldlM step a = some b ↔ ∃ a', step a e = some a' ∧ es.foldlM step a' = some b := by
  rw [List.foldlM_cons]
  exact Option.bind_eq_some_iff

theorem foldlM_invariant (Inv : S → Prop) (kept : ∀ a, ∀ e ∈ es, ∀ b, Inv a → step a e = some b → Inv b)
    (holds : Inv a) (ran : es.foldlM step a = some b) : Inv b := by
  induction es generalizing a with
  | nil =>
    cases ran
    exact holds
  | cons e es ih =>
    obtain ⟨a', stepped, rest⟩ := foldlM_cons_eq_some.mp ran
    exact ih (fun a e member => kept a e (List.mem_cons_of_mem _ member))
      (kept a e (mem_cons_self ..) a' holds stepped) rest

theorem foldlM_mono (more : ∀ a e b, step a e = some b → step' a e = some b)
    (ran : es.foldlM step a = some b) : es.foldlM step' a = some b := by
  induction es generalizing a with
  | nil => exact ran
  | cons e es ih =>
    obtain ⟨a', stepped, rest⟩ := foldlM_cons_eq_some.mp ran
    exact foldlM_cons_eq_some.mpr ⟨a', more a e a' stepped, ih rest⟩

end Fold

omit [LawfulEqOrd N] in
theorem copyTree_succ (copied : copyTree size fuel t src dst = some c) :
    copyTree size (fuel + 1) t src dst = some c := by
  induction fuel generalizing t src dst c with
  | zero => contradiction
  | succ fuel ih =>
    refine foldlM_mono (fun done name c stepped => ?_) copied
    simp only [copyEntry] at stepped ⊢
    split at stepped
    case h_1 =>
      obtain ⟨below, walked, rfl⟩ := Option.map_eq_some_iff.mp stepped
      simp only [ih walked, Option.map_some]
    case h_2 content isFile => simpa only [isFile] using stepped
    case h_3 absent => simpa only [absent] using stepped

omit [LawfulEqOrd N] in
theorem copyTree_mono {more : Nat} (enough : fuel ≤ more) (copied : copyTree size fuel t src dst = some c) :
    copyTree size more t src dst = some c := by
  induction enough with
  | refl => exact copied
  | step _ ih => exact copyTree_succ ih

/-- A walk that changes nothing outside its destination, but for the directories above it. -/
def Framed (walk : Tree N C → List N → List N → Option (Copied N C)) : Prop :=
  ∀ {t src dst c p}, walk t src dst = some c → ¬ dst <+: p → c.tree[p]? = (t.mkdirAll dst)[p]?

section Entry

variable {walk : Tree N C → List N → List N → Option (Copied N C)} {done : Copied N C}

theorem copyEntry_elsewhere (framed : Framed walk) (stepped : copyEntry size walk src dst done name = some c)
    (outside : ¬ dst ++ [name] <+: p) (made : p <+: dst → p ∈ done.tree) : c.tree[p]? = done.tree[p]? := by
  have apart : dst ++ [name] ≠ p := by
    rintro rfl
    exact outside (prefix_refl _)
  simp only [copyEntry] at stepped
  split at stepped
  case h_1 =>
    obtain ⟨below, walked, rfl⟩ := Option.map_eq_some_iff.mp stepped
    rw [framed walked outside, Tree.getElem?_mkdirAll]
    split
    case isTrue above =>
      obtain equal | above := List.prefix_concat_iff.mp above
      · exact absurd equal.symm apart
      · rw [ExtTreeMap.getElem?_eq_some_getElem (made above), Option.getD_some]
    case isFalse => rfl
  case h_2 content isFile =>
    cases stepped
    rw [getElem?_insert, if_neg (by simpa using apart)]
  case h_3 =>
    cases stepped
    rfl

end Entry

theorem Tree.mem_mkdirAll (above : p <+: dst) : p ∈ t.mkdirAll dst := by
  rw [mem_iff_isSome_getElem?, Tree.getElem?_mkdirAll, if_pos above]
  rfl

theorem copyTree_framed : Framed (copyTree (N := N) size fuel) := by
  induction fuel with
  | zero => exact fun copied => by contradiction
  | succ fuel ih =>
    intro t src dst c p copied outside
    refine foldlM_invariant (fun done => done.tree[p]? = (t.mkdirAll dst)[p]?) ?_ rfl copied
    intro done name _ c same stepped
    refine (copyEntry_elsewhere ih stepped (fun under => ?_) fun above => ?_).trans same
    · exact outside ((prefix_append ..).trans under)
    · have made := Tree.mem_mkdirAll (t := t) above
      rw [mem_iff_isSome_getElem?] at made ⊢
      rwa [same]

/-- A walk into a directory below the one that is walked does not end. `name` is the first name on the
way from the source to the destination. -/
theorem copyTree_below (below : src ++ [name] <+: dst)
    (clear : ∀ p, p <+: dst → ∀ content, t[p]? ≠ some (.file content))
    (absent : ∀ q, t[dst ++ name :: q]? = none) : copyTree size fuel t src dst = none := by
  induction fuel generalizing t src dst name with
  | zero => rfl
  | succ fuel ih =>
    have made : ∀ p, p <+: dst → (t.mkdirAll dst)[p]? = some .dir := by
      intro p above
      rw [Tree.getElem?_mkdirAll, if_pos above]
      have notFile := clear p above
      cases found : t[p]? with
      | none => rfl
      | some node =>
        cases node with
        | dir => rfl
        | file content => exact absurd found (notFile content)
    have listed : name ∈ (t.mkdirAll dst).entries src :=
      Tree.mem_entries.mpr (Tree.mem_mkdirAll below)
    -- Up to the name itself, the walk leaves the place free where the name will be copied to.
    obtain ⟨before, after, parts, first⟩ := List.eq_append_cons_of_mem listed
    rw [copyTree, parts, List.foldlM_append]
    refine Option.bind_eq_none_iff.mpr fun done ran => ?_
    have state : (∀ p, p <+: dst → done.tree[p]? = some .dir) ∧ ∀ q, done.tree[dst ++ name :: q]? = none := by
      refine foldlM_invariant (fun done => (∀ p, p <+: dst → done.tree[p]? = some .dir) ∧
        ∀ q, done.tree[dst ++ name :: q]? = none) ?_ ⟨made, fun q => ?_⟩ ran
      · rintro done other member c ⟨dirs, free⟩ stepped
        have differs : other ≠ name := by
          rintro rfl
          exact first member
        refine ⟨fun p above => ?_, fun q => ?_⟩
        · refine (copyEntry_elsewhere copyTree_framed stepped (fun under => ?_) fun _ => ?_).trans (dirs p above)
          · exact not_append_prefix (under.trans above)
          · exact mem_iff_isSome_getElem?.mpr (by rw [dirs p above]; rfl)
        · refine (copyEntry_elsewhere copyTree_framed stepped (fun under => ?_) fun above => ?_).trans (free q)
          · simp [List.prefix_append_right_inj, differs] at under
          · exact absurd above not_append_prefix
      · rw [Tree.getElem?_mkdirAll, if_neg not_append_prefix]
        exact absent q
    obtain ⟨dirs, free⟩ := state
    have endless : copyTree size fuel done.tree (src ++ [name]) (dst ++ [name]) = none := by
      obtain ⟨rest, isRest⟩ := below
      obtain ⟨next, others, isNext⟩ : ∃ next others, rest ++ [name] = next :: others :=
        List.exists_cons_of_ne_nil (by simp)
      have again : src ++ [name] ++ [next] <+: dst ++ [name] := by
        refine ⟨others, ?_⟩
        rw [← isRest, append_assoc, append_assoc (src ++ [name]), isNext, singleton_append]
      refine ih again (fun p above content => ?_) fun q => ?_
      · obtain rfl | above := List.prefix_concat_iff.mp above
        · rw [free []]
          simp
        · rw [dirs p above]
          simp
      · rw [append_assoc]
        exact free (next :: q)
    rw [List.foldlM_cons, copyEntry, dirs _ below]
    simp only [endless]
    rfl

/-- What a directory holds, by the names below it, to a depth. -/
structure Rooted (f : List N → Option (Node C)) (depth : Nat) : Prop where
  root : f [] = some .dir
  parents : ∀ q n r, f (q ++ n :: r) ≠ none → f q = some .dir
  short : ∀ q, f q ≠ none → q.length < depth

variable {f : List N → Option (Node C)}

omit [Ord N] [TransOrd N] [LawfulEqOrd N] [DecidableEq N] in
theorem Rooted.child {depth : Nat} (rooted : Rooted f (depth + 1)) (isDir : f [name] = some .dir) :
    Rooted (fun q => f (name :: q)) depth where
  root := isDir
  parents q n r := rooted.parents (name :: q) n r
  short q present := Nat.lt_of_succ_lt_succ (rooted.short (name :: q) present)

/-- The state of a walk of a directory that holds `f`, when it has passed some of the names. -/
structure Walking (f : List N → Option (Node C)) (src dst passed : List N) (done : Copied N C) : Prop where
  source : ∀ q, done.tree[src ++ q]? = f q
  made : ∀ p, p <+: dst → p ∈ done.tree
  root : done.tree[dst]? = some .dir
  copied : ∀ n q, done.tree[dst ++ n :: q]? = if n ∈ passed then f (n :: q) else none

/-- The walk copies the directories in `src`, which holds `f`, to places in `dst` that are free. -/
def CopiesWhole (walk : Tree N C → List N → List N → Option (Copied N C)) (f : List N → Option (Node C))
    (src dst : List N) : Prop :=
  ∀ name, f [name] = some .dir → ∀ t : Tree N C, (∀ q, t[src ++ [name] ++ q]? = f (name :: q)) →
    (∀ q, t[dst ++ [name] ++ q]? = none) →
    ∃ c, walk t (src ++ [name]) (dst ++ [name]) = some c ∧ ∀ q, c.tree[dst ++ [name] ++ q]? = f (name :: q)

namespace Walking

variable {walk : Tree N C → List N → List N → Option (Copied N C)} {passed : List N} {done : Copied N C} {depth : Nat}
  (rooted : Rooted f depth) (apart : ∀ q, ¬ dst <+: src ++ q) (framed : Framed walk)
  (whole : CopiesWhole walk f src dst)

include rooted apart framed whole

theorem entry (walking : Walking f src dst passed done) (present : f [name] ≠ none) (fresh : name ∉ passed) :
    ∃ c, copyEntry size walk src dst done name = some c ∧ Walking f src dst (name :: passed) c := by
  have copies : ∃ c, copyEntry size walk src dst done name = some c ∧ ∀ q, c.tree[dst ++ name :: q]? = f (name :: q) := by
    cases isNode : f [name] with
    | none => exact absurd isNode present
    | some node =>
      rw [copyEntry, walking.source, isNode]
      cases node with
      | dir =>
        obtain ⟨c, walked, held⟩ := whole name isNode done.tree
          (fun q => by rw [append_assoc]; exact walking.source (name :: q))
          (fun q => by rw [append_assoc, singleton_append, walking.copied, if_neg fresh])
        simp only [walked]
        refine ⟨_, rfl, fun q => ?_⟩
        simpa only [append_assoc, singleton_append] using held q
      | file content =>
        refine ⟨_, rfl, fun q => ?_⟩
        cases q with
        | nil => rw [ExtTreeMap.getElem?_insert_self, isNode]
        | cons n q =>
          -- Nothing is below a file.
          have below : f (name :: n :: q) = none := by
            by_contra exists_below
            have isDir := rooted.parents [name] n q exists_below
            rw [isNode] at isDir
            cases isDir
          rw [getElem?_insert, if_neg (by simp), below, walking.copied, if_neg fresh]
  obtain ⟨c, stepped, held⟩ := copies
  have same : ∀ {p}, ¬ dst ++ [name] <+: p → (p <+: dst → p ∈ done.tree) → c.tree[p]? = done.tree[p]? :=
    fun outside made => copyEntry_elsewhere framed stepped outside made
  have notBelow : ∀ {p}, p <+: dst → ¬ dst ++ [name] <+: p := fun above under => not_append_prefix (under.trans above)
  refine ⟨c, stepped, fun q => ?_, fun p above => ?_, ?_, fun n q => ?_⟩
  · refine (same (fun under => apart q ((prefix_append ..).trans under)) fun above => ?_).trans (walking.source q)
    exact walking.made _ above
  · have was := walking.made p above
    rw [mem_iff_isSome_getElem?] at was ⊢
    rwa [same (notBelow above) fun _ => walking.made p above]
  · rw [same (notBelow (prefix_refl _)) fun above => walking.made _ above, walking.root]
  · by_cases here : n = name
    · subst here
      rw [held, if_pos (mem_cons_self ..)]
    · rw [same (fun under => ?_) fun above => ?_, walking.copied]
      · simp only [mem_cons, here, false_or]
      · simp [List.prefix_append_right_inj, Ne.symm here] at under
      · exact absurd above not_append_prefix

theorem entries {names : List N} (walking : Walking f src dst passed done) (nodup : names.Nodup)
    (fresh : ∀ n ∈ names, n ∉ passed ∧ f [n] ≠ none) :
    ∃ c, names.foldlM (copyEntry size walk src dst) done = some c ∧ Walking f src dst (names.reverse ++ passed) c := by
  induction names generalizing passed done with
  | nil => exact ⟨done, rfl, walking⟩
  | cons n names ih =>
    obtain ⟨first, nodup⟩ := List.nodup_cons.mp nodup
    obtain ⟨new, present⟩ := fresh n (mem_cons_self ..)
    obtain ⟨c, stepped, next⟩ := walking.entry rooted apart framed whole present new
    obtain ⟨c', ran, last⟩ := ih next nodup fun m member => by
      obtain ⟨newer, presentToo⟩ := fresh m (List.mem_cons_of_mem _ member)
      refine ⟨?_, presentToo⟩
      rw [mem_cons, not_or]
      exact ⟨fun same => first (same ▸ member), newer⟩
    refine ⟨c', foldlM_cons_eq_some.mpr ⟨c, stepped, ran⟩, ?_⟩
    rwa [List.reverse_cons, append_assoc, singleton_append]

end Walking

/-- A walk to a fresh destination that is not below the source ends, and the destination holds what the
source held. -/
theorem copyTree_whole (rooted : Rooted f fuel) (held : ∀ q, t[src ++ q]? = f q) (notBelow : ¬ src <+: dst)
    (notAbove : ¬ dst <+: src) (absent : ∀ q, t[dst ++ q]? = none) :
    ∃ c, copyTree size fuel t src dst = some c ∧ ∀ q, c.tree[dst ++ q]? = f q := by
  induction fuel generalizing t src dst f with
  | zero => exact absurd (rooted.short [] (by simp [rooted.root])) (by simp)
  | succ fuel ih =>
    have apart : ∀ q, ¬ dst <+: src ++ q := fun q under =>
      (List.prefix_or_prefix_of_prefix under (prefix_append ..)).elim notAbove notBelow
    have source : ∀ q, (t.mkdirAll dst)[src ++ q]? = f q := by
      intro q
      rw [Tree.getElem?_mkdirAll, if_neg fun above => notBelow ((prefix_append ..).trans above)]
      exact held q
    have start : Walking f src dst [] ⟨t.mkdirAll dst, 0, 0⟩ := by
      refine ⟨source, fun p above => Tree.mem_mkdirAll above, ?_, fun n q => ?_⟩
      · have free := absent []
        rw [append_nil] at free
        rw [Tree.getElem?_mkdirAll, if_pos (prefix_refl _), free]
        rfl
      · rw [Tree.getElem?_mkdirAll, if_neg not_append_prefix, absent]
        rfl
    have whole : CopiesWhole (copyTree size fuel) f src dst := by
      intro n isDir t held free
      refine ih (rooted.child isDir) held (fun below => ?_) (fun above => ?_) free
      · obtain equal | below := List.prefix_concat_iff.mp below
        · exact notBelow (by rw [List.append_cancel_right equal])
        · exact notBelow ((prefix_append ..).trans below)
      · exact apart [n] ((prefix_append ..).trans above)
    have listed : ∀ n, n ∈ (t.mkdirAll dst).entries src ↔ f [n] ≠ none := by
      intro n
      rw [Tree.mem_entries, mem_iff_isSome_getElem?, source, Option.isSome_iff_ne_none]
    obtain ⟨c, copied, last⟩ := start.entries rooted apart copyTree_framed whole Tree.entries_nodup
      fun n member => ⟨List.not_mem_nil, (listed n).mp member⟩
    refine ⟨c, copied, fun q => ?_⟩
    cases q with
    | nil => rw [append_nil, last.root, rooted.root]
    | cons n q =>
      rw [last.copied]
      split
      case isTrue => rfl
      case isFalse unlisted =>
        by_contra present
        refine unlisted (List.mem_append_left _ (List.mem_reverse.mpr ((listed n).mpr ?_)))
        cases q with
        | nil => exact Ne.symm present
        | cons m q => simp [rooted.parents [n] m q (Ne.symm present)]

theorem copyTree_faithful {depth : Nat} (rooted : Rooted f depth) (held : ∀ q, t[src ++ q]? = f q)
    (notBelow : ¬ src <+: dst) (notAbove : ¬ dst <+: src) (absent : ∀ q, t[dst ++ q]? = none)
    (copied : copyTree size fuel t src dst = some c) : ∀ q, c.tree[dst ++ q]? = f q := by
  obtain ⟨c', copied', same⟩ : ∃ c', copyTree size depth t src dst = some c' ∧ ∀ q, c'.tree[dst ++ q]? = f q :=
    copyTree_whole rooted held notBelow notAbove absent
  have more := copyTree_mono (Nat.le_max_left fuel depth) copied
  rw [copyTree_mono (Nat.le_max_right fuel depth) copied'] at more
  cases more
  exact same

/-- Everything is in a directory. -/
def Tree.WellFormed (t : Tree N C) : Prop :=
  ∀ (p : List N) (n : N) (q : List N), t[p ++ n :: q]? ≠ none → t[p]? = some .dir

omit [DecidableEq N] in
theorem Tree.WellFormed.rooted (wellFormed : t.WellFormed) (isDir : t[src]? = some .dir) :
    ∃ depth, Rooted (fun q => t[src ++ q]?) depth := by
  refine ⟨(t.keys.map List.length).sum + 1, ?_, fun q n r present => ?_, fun q present => ?_⟩
  · rw [append_nil, isDir]
  · rw [← append_assoc] at present
    exact wellFormed _ n r present
  · have listed : src ++ q ∈ t.keys := by
      rw [mem_keys, mem_iff_isSome_getElem?, Option.isSome_iff_ne_none]
      exact present
    have bound : (src ++ q).length ≤ _ := List.le_sum_of_mem (List.mem_map_of_mem listed)
    rw [List.length_append] at bound
    omega

/-- A place that is free after a walk and not in its destination is no directory above it, and nothing
is below it. -/
theorem copyTree_fresh (wellFormed : t.WellFormed) (copied : copyTree size fuel t src dst = some c)
    (fresh : p ∉ c.tree) (apart : ¬ dst <+: p) : ¬ p <+: dst ∧ ∀ q, c.tree[p ++ q]? = none := by
  have absent := ExtTreeMap.getElem?_eq_none fresh
  have framed := copyTree_framed copied apart
  have notAbove : ¬ p <+: dst := by
    intro above
    rw [framed, Tree.getElem?_mkdirAll, if_pos above] at absent
    contradiction
  rw [framed, Tree.getElem?_mkdirAll, if_neg notAbove] at absent
  refine ⟨notAbove, fun q => ?_⟩
  have outside : ¬ dst <+: p ++ q := fun under =>
    (List.prefix_or_prefix_of_prefix under (prefix_append ..)).elim apart notAbove
  rw [copyTree_framed copied outside, Tree.getElem?_mkdirAll,
    if_neg fun above => notAbove ((prefix_append ..).trans above)]
  cases q with
  | nil => rw [append_nil, absent]
  | cons n q =>
    by_contra present
    rw [wellFormed p n q present] at absent
    contradiction

end Quiver.TreeCopy
