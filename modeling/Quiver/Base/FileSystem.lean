import Mathlib.Data.Option.Basic
import Quiver.Base.Maps

/-!
Files that a crash can cut. A crash keeps what has been synced of a file and some prefix of what was
appended since; directory operations are atomic and ordered. Programs perform effects and read the
disk between them, and their specifications say what holds at the end and at every point in between.
-/

namespace FileSystem

open Std (ExtTreeMap TransOrd LawfulEqOrd)

variable {P C ε α β : Type}

structure File (C : Type) where
  synced : List C
  pending : List C
  deriving DecidableEq

def File.empty : File C := ⟨[], []⟩

def File.content (f : File C) : List C := f.synced ++ f.pending

/-- Files and directories by path; a directory is an entry without content. -/
abbrev Disk (P C : Type) [Ord P] := ExtTreeMap P (File C)

inductive Effect (P C : Type) where
  /-- Create a file, or truncate the one that is there. -/
  | create (path : P)
  | mkdir (path : P)
  | append (path : P) (data : List C)
  | sync (path : P)
  | rename (source target : P)
  | remove (path : P)
  deriving DecidableEq

section

variable [Ord P] [TransOrd P]

def apply (d : Disk P C) : Effect P C → Disk P C
  | .create p => d.insert p File.empty
  | .mkdir p => if p ∈ d then d else d.insert p File.empty
  | .append p data => d.alter p (Option.map fun f => { f with pending := f.pending ++ data })
  | .sync p => d.alter p (Option.map fun f => ⟨f.synced ++ f.pending, []⟩)
  | .rename source target =>
    match d[source]? with
    | some f => (d.erase source).insert target f
    | none => d
  | .remove p => d.erase p

def applyAll (d : Disk P C) (effects : List (Effect P C)) : Disk P C := effects.foldl apply d

section

variable (d : Disk P C)
include d

@[simp] theorem applyAll_nil : applyAll d [] = d := rfl

@[simp] theorem applyAll_cons (e : Effect P C) (rest : List (Effect P C)) :
    applyAll d (e :: rest) = applyAll (apply d e) rest := rfl

theorem applyAll_append (first second : List (Effect P C)) :
    applyAll d (first ++ second) = applyAll (applyAll d first) second :=
  List.foldl_append

@[simp] theorem create_self (p : P) : (apply d (.create p))[p]? = some .empty := by
  simp [apply]

@[simp] theorem append_self (p : P) (data : List C) :
    (apply d (.append p data))[p]? =
      d[p]?.map fun f => { f with pending := f.pending ++ data } := by
  simp [apply]

@[simp] theorem sync_self (p : P) :
    (apply d (.sync p))[p]? = d[p]?.map fun f => ⟨f.synced ++ f.pending, []⟩ := by
  simp [apply]

@[simp] theorem remove_self (p : P) : (apply d (.remove p))[p]? = none := by
  simp [apply]

end

theorem rename_target {d : Disk P C} {source target : P} {f : File C} (found : d[source]? = some f) :
    (apply d (.rename source target))[target]? = some f := by
  simp [apply, found]

/-- What a crash may leave of a file. -/
def Survives (f f' : File C) : Prop :=
  f'.pending = [] ∧ ∃ kept, kept <+: f.pending ∧ f'.synced = f.synced ++ kept

def Crashed (d d' : Disk P C) : Prop := ∀ p : P, Option.Rel Survives d[p]? d'[p]?

section

variable {d d' : Disk P C} (crashed : Crashed d d') {p : P}
include crashed

theorem Crashed.missing (absent : d[p]? = none) : d'[p]? = none := Maps.rel_none (crashed p) absent

theorem Crashed.mem_of_mem (present : p ∈ d') : p ∈ d := by
  by_contra absent
  have gone := crashed.missing (ExtTreeMap.getElem?_eq_none absent)
  rw [ExtTreeMap.getElem?_eq_some_getElem present] at gone
  contradiction

theorem Crashed.found {f : File C} (found : d[p]? = some f) : ∃ f', d'[p]? = some f' ∧ Survives f f' :=
  Maps.rel_left (crashed p) found

theorem Crashed.synced {f : File C}
    (found : d[p]? = some f) (synced : f.pending = []) : d'[p]? = some f := by
  obtain ⟨⟨kept, left⟩, found', nothing, part, isPrefix, same⟩ := crashed.found found
  obtain ⟨whole, pending⟩ := f
  rw [show pending = [] from synced, List.prefix_nil] at isPrefix
  simp only at nothing same synced
  rw [found', same, isPrefix, nothing, synced, List.append_nil]

end

/-- The disk when nothing crashed: everything that was written is there. -/
def closed (d : Disk P C) : Disk P C := d.map fun _ f => ⟨f.content, []⟩

theorem crashed_closed [LawfulEqOrd P] (d : Disk P C) : Crashed d (closed d) := by
  intro p
  simp only [closed, ExtTreeMap.getElem?_map]
  cases d[p]? with
  | none => exact .none
  | some f => exact .some ⟨rfl, f.pending, List.prefix_refl _, rfl⟩

/-- The paths whose entry an effect may change. -/
def Effect.Touches : Effect P C → P → Prop
  | .create q, p | .mkdir q, p | .append q _, p | .sync q, p | .remove q, p => p = q
  | .rename source target, p => p = source ∨ p = target

section Untouched

variable [LawfulEqOrd P]

theorem apply_untouched {d : Disk P C} {e : Effect P C} {p : P} (other : ¬ e.Touches p) :
    (apply d e)[p]? = d[p]? := by
  cases e with
  | create q => simp [apply, ExtTreeMap.getElem?_insert, Ne.symm other]
  | mkdir q =>
    simp only [apply]
    split
    · rfl
    · simp [ExtTreeMap.getElem?_insert, Ne.symm other]
  | append q data | sync q => simp [apply, ExtTreeMap.getElem?_alter, Ne.symm other]
  | rename source target =>
    simp only [Effect.Touches, not_or] at other
    simp only [apply]
    split
    · simp [ExtTreeMap.getElem?_insert, ExtTreeMap.getElem?_erase, Ne.symm other.1, Ne.symm other.2]
    · rfl
  | remove q => simp [apply, ExtTreeMap.getElem?_erase, Ne.symm other]

theorem applyAll_untouched {effects : List (Effect P C)} {p : P}
    (others : ∀ e ∈ effects, ¬ e.Touches p) (d : Disk P C) :
    (applyAll d effects)[p]? = d[p]? := by
  induction effects generalizing d with
  | nil => rfl
  | cons e effects ih =>
    rw [applyAll_cons, ih (fun e member => others e (List.mem_cons_of_mem _ member)),
      apply_untouched (others e (List.mem_cons_self ..))]

theorem getElem?_removeAll (paths : List P) (d : Disk P C) (p : P) [DecidableEq P] :
    (applyAll d (paths.map .remove))[p]? = if p ∈ paths then none else d[p]? := by
  induction paths generalizing d with
  | nil => simp
  | cons q paths ih =>
    rw [List.map_cons, applyAll_cons, ih]
    by_cases later : p ∈ paths
    · simp [later]
    · by_cases here : p = q
      · subst here
        simp [later]
      · simp only [List.mem_cons, later, here, or_self, if_false]
        exact apply_untouched here

theorem mem_removeAll (paths : List P) (d : Disk P C) (p : P) [DecidableEq P] :
    p ∈ applyAll d (paths.map .remove) ↔ p ∈ d ∧ p ∉ paths := by
  rw [ExtTreeMap.mem_iff_isSome_getElem?, getElem?_removeAll, ExtTreeMap.mem_iff_isSome_getElem?]
  by_cases listed : p ∈ paths <;> simp [listed]

end Untouched

def Prog (P : Type) [Ord P] (C ε α : Type) := Disk P C → List (Effect P C) × Except ε α

namespace Prog

def pure (a : α) : Prog P C ε α := fun _ => ([], .ok a)

def bind (x : Prog P C ε α) (f : α → Prog P C ε β) : Prog P C ε β := fun d =>
  match x d with
  | (effects, .error error) => (effects, .error error)
  | (effects, .ok a) =>
    let (more, result) := f a (applyAll d effects)
    (effects ++ more, result)

instance : Monad (Prog P C ε) where
  pure := pure
  bind := bind

def perform (e : Effect P C) : Prog P C ε Unit := fun _ => ([e], .ok ())

def performAll (effects : List (Effect P C)) : Prog P C ε Unit := fun _ => (effects, .ok ())

def read (f : Disk P C → Except ε α) : Prog P C ε α := fun d => ([], f d)

def fail (error : ε) : Prog P C ε α := fun _ => ([], .error error)

def run (x : Prog P C ε α) (d : Disk P C) : Disk P C × Except ε α :=
  (applyAll d (x d).1, (x d).2)

/-- From `d` the program succeeds with `post`, and `crash` holds after every prefix of its
effects. -/
def Spec (x : Prog P C ε α) (d : Disk P C) (crash : Disk P C → Prop)
    (post : α → Disk P C → Prop) : Prop :=
  (∀ count, crash (applyAll d ((x d).1.take count))) ∧
    ∃ a, (x d).2 = .ok a ∧ post a (applyAll d (x d).1)

variable {d : Disk P C} {crash : Disk P C → Prop}

theorem Spec.crash_start {x : Prog P C ε α} {post : α → Disk P C → Prop}
    (spec : x.Spec d crash post) : crash d := spec.1 0

theorem Spec.weaken {x : Prog P C ε α} {post post' : α → Disk P C → Prop}
    (spec : x.Spec d crash post) (implies : ∀ a d', post a d' → post' a d') :
    x.Spec d crash post' := by
  obtain ⟨safe, a, result, holds⟩ := spec
  exact ⟨safe, a, result, implies a _ holds⟩

theorem Spec.weakenCrash {x : Prog P C ε α} {crash' : Disk P C → Prop} {post : α → Disk P C → Prop}
    (spec : x.Spec d crash post) (implies : ∀ d', crash d' → crash' d') : x.Spec d crash' post :=
  ⟨fun count => implies _ (spec.1 count), spec.2⟩

theorem Spec.of_run {x : Prog P C ε α} {post : α → Disk P C → Prop} {a : α} {d' : Disk P C}
    (spec : x.Spec d crash post) (ran : x.run d = (d', .ok a)) : post a d' := by
  obtain ⟨_, b, result, holds⟩ := spec
  have isDir : applyAll d (x d).1 = d' := congrArg Prod.fst ran
  have isResult : (x d).2 = .ok a := congrArg Prod.snd ran
  rw [isResult] at result
  cases result
  exact isDir ▸ holds

theorem bind_error {x : Prog P C ε α} {f : α → Prog P C ε β} {error : ε} (failed : (x d).2 = .error error) :
    ((x >>= f) d).2 = .error error := by
  change (bind x f d).2 = _
  simp only [bind]
  generalize x d = out at failed
  obtain ⟨effects, result⟩ := out
  cases failed
  rfl

theorem bind_ok {x : Prog P C ε α} {f : α → Prog P C ε β} {b : β} (isOk : ((x >>= f) d).2 = .ok b) :
    ∃ a, (x d).2 = .ok a ∧ (f a (applyAll d (x d).1)).2 = .ok b := by
  change (bind x f d).2 = _ at isOk
  simp only [bind] at isOk
  generalize x d = out at isOk ⊢
  obtain ⟨effects, _ | a⟩ := out
  · contradiction
  · exact ⟨a, rfl, isOk⟩

theorem run_of_toOption {x : Prog P C ε α} {a : α} (isOk : (x.run d).2.toOption = some a) :
    x.run d = ((x.run d).1, .ok a) := by
  generalize x.run d = out at isOk
  obtain ⟨d', _ | b⟩ := out
  · contradiction
  · cases isOk
    rfl

theorem spec_pure {a : α} {post : α → Disk P C → Prop} (safe : crash d) (holds : post a d) :
    (Pure.pure a : Prog P C ε α).Spec d crash post :=
  ⟨fun count => by cases count <;> exact safe, a, rfl, holds⟩

theorem spec_read {f : Disk P C → Except ε α} {a : α} {post : α → Disk P C → Prop}
    (safe : crash d) (result : f d = .ok a) (holds : post a d) : (read f).Spec d crash post :=
  ⟨fun count => by cases count <;> exact safe, a, result, holds⟩

theorem spec_performAll {effects : List (Effect P C)} {post : Unit → Disk P C → Prop}
    (safe : ∀ count, crash (applyAll d (effects.take count)))
    (holds : post () (applyAll d effects)) :
    (performAll effects : Prog P C ε Unit).Spec d crash post :=
  ⟨safe, (), rfl, holds⟩

theorem spec_bind {x : Prog P C ε α} {f : α → Prog P C ε β} {post : β → Disk P C → Prop}
    (mid : α → Disk P C → Prop) (first : x.Spec d crash mid)
    (second : ∀ a d', mid a d' → (f a).Spec d' crash post) : (x >>= f).Spec d crash post := by
  obtain ⟨safe, a, result, holds⟩ := first
  obtain ⟨safe', b, result', holds'⟩ := second a _ holds
  have effects : (x >>= f) d =
      ((x d).1 ++ (f a (applyAll d (x d).1)).1, (f a (applyAll d (x d).1)).2) := by
    change bind x f d = _
    simp only [bind]
    rcases pair : x d with ⟨effects, _ | a'⟩
    · rw [pair] at result
      contradiction
    · rw [pair] at result
      cases result
      rfl
  refine ⟨fun count => ?_, b, by rw [effects]; exact result', ?_⟩
  · rw [effects, List.take_append, applyAll_append]
    by_cases inside : count ≤ (x d).1.length
    · rw [Nat.sub_eq_zero_of_le inside, List.take_zero, applyAll_nil]
      exact safe count
    · rw [List.take_of_length_le (Nat.le_of_not_le inside)]
      exact safe' _
  · rw [effects, applyAll_append]
    exact holds'

theorem spec_read_bind {f : Disk P C → Except ε α} {g : α → Prog P C ε β} {a : α}
    {post : β → Disk P C → Prop} (result : f d = .ok a) (rest : (g a).Spec d crash post) :
    (read f >>= g).Spec d crash post := by
  refine spec_bind (fun b d' => b = a ∧ d' = d) (spec_read rest.crash_start result ⟨rfl, rfl⟩) ?_
  rintro _ _ ⟨rfl, rfl⟩
  exact rest

theorem spec_performAll_bind {effects : List (Effect P C)} {g : PUnit → Prog P C ε β}
    {post : β → Disk P C → Prop} (safe : ∀ count, crash (applyAll d (effects.take count)))
    (rest : (g ()).Spec (applyAll d effects) crash post) :
    (performAll effects >>= g).Spec d crash post := by
  refine spec_bind (fun _ d' => d' = applyAll d effects) (spec_performAll safe rfl) ?_
  rintro _ _ rfl
  exact rest

theorem spec_foldlM {σ : Type} {items : List α} {body : σ → α → Prog P C ε σ} {s : σ}
    (Inv : List α → σ → Disk P C → Prop) (start : Inv [] s d)
    (safe : ∀ done s' d', Inv done s' d' → crash d')
    (turn : ∀ done a rest s' d', items = done ++ a :: rest → Inv done s' d' →
      (body s' a).Spec d' crash fun s'' d'' => Inv (done ++ [a]) s'' d'') :
    (items.foldlM body s).Spec d crash fun s' d' => Inv items s' d' := by
  suffices general : ∀ rest done s' d', items = done ++ rest → Inv done s' d' →
      (rest.foldlM body s').Spec d' crash fun s'' d'' => Inv items s'' d'' from
    general items [] s d rfl start
  intro rest
  induction rest with
  | nil =>
    intro done s' d' split holds
    rw [List.append_nil] at split
    exact spec_pure (safe done s' d' holds) (split ▸ holds)
  | cons a rest ih =>
    intro done s' d' split holds
    rw [List.foldlM_cons]
    refine spec_bind _ (turn done a rest s' d' split holds) fun s'' d'' holds' => ?_
    exact ih (done ++ [a]) s'' d'' (by simp [split]) holds'

theorem forM_eq_foldlM (items : List α) (body : α → Prog P C ε PUnit) :
    items.forM body = items.foldlM (fun _ a => body a) ⟨⟩ := by
  induction items with
  | nil => rfl
  | cons a items ih => exact congrArg (body a >>= ·) (funext fun _ => ih)

theorem spec_forM {items : List α} {body : α → Prog P C ε PUnit}
    (Inv : List α → Disk P C → Prop) (start : Inv [] d) (safe : ∀ done d', Inv done d' → crash d')
    (turn : ∀ done a rest d', items = done ++ a :: rest → Inv done d' →
      (body a).Spec d' crash fun _ d'' => Inv (done ++ [a]) d'') :
    (items.forM body).Spec d crash fun _ d' => Inv items d' := by
  rw [forM_eq_foldlM]
  exact spec_foldlM (fun done _ => Inv done) start (fun done _ => safe done) fun done a rest _ => turn done a rest

/-- On every disk, if the program comes to its end, it is with such a result. -/
def Returns (x : Prog P C ε α) (post : α → Prop) : Prop := ∀ d a, (x d).2 = .ok a → post a

theorem Returns.of_run {x : Prog P C ε α} {post : α → Prop} (returns : x.Returns post) {a : α} {d' : Disk P C}
    (ran : x.run d = (d', .ok a)) : post a := returns d a (congrArg Prod.snd ran)

theorem returns_pure {post : α → Prop} {a : α} (holds : post a) : (Pure.pure a : Prog P C ε α).Returns post := by
  intro d b result
  cases result
  exact holds

theorem returns_bind {x : Prog P C ε α} {f : α → Prog P C ε β} {post : β → Prop} (mid : α → Prop)
    (first : x.Returns mid) (second : ∀ a, mid a → (f a).Returns post) : (x >>= f).Returns post := by
  intro d b result
  obtain ⟨a, isOk, result⟩ := bind_ok result
  exact second a (first d a isOk) _ b result

/-- The rule for a step whose result does not matter. -/
theorem returns_skip {x : Prog P C ε α} {f : α → Prog P C ε β} {post : β → Prop}
    (second : ∀ a, (f a).Returns post) : (x >>= f).Returns post :=
  returns_bind (fun _ => True) (fun _ _ _ => trivial) fun a _ => second a

theorem returns_foldlM {σ : Type} {items : List α} {body : σ → α → Prog P C ε σ} {s : σ} (Inv : σ → Prop) (start : Inv s)
    (turn : ∀ a ∈ items, ∀ s', Inv s' → (body s' a).Returns Inv) : (items.foldlM body s).Returns Inv := by
  induction items generalizing s with
  | nil => exact returns_pure start
  | cons a items ih =>
    rw [List.foldlM_cons]
    refine returns_bind Inv (turn a (List.mem_cons_self ..) s start) fun s' holds => ?_
    exact ih holds fun a member => turn a (List.mem_cons_of_mem _ member)

end Prog

end

end FileSystem
