import Mathlib.Data.List.Forall2

/-!
Computations that may fail: what a successful sequence of them is made of.
-/

namespace Results

variable {ε α β : Type}

theorem bind_eq_ok {x : Except ε α} {f : α → Except ε β} {b : β} :
    (x >>= f) = .ok b ↔ ∃ a, x = .ok a ∧ f a = .ok b := by
  cases x with
  | error e | ok a => simp [bind, Except.bind]

theorem toOption_eq_some {x : Except ε α} {a : α} : x.toOption = some a ↔ x = .ok a := by
  cases x <;> simp [Except.toOption]

@[simp] theorem ok_bind (a : α) (f : α → Except ε β) : (Except.ok a >>= f) = f a := rfl

@[simp] theorem error_bind (e : ε) (f : α → Except ε β) : (Except.error e >>= f) = .error e := rfl

@[simp] theorem pure_eq_ok (a : α) : (pure a : Except ε α) = .ok a := rfl

theorem mapM_eq_ok {items : List α} {f : α → Except ε β} {results : List β} :
    items.mapM f = .ok results ↔ List.Forall₂ (fun a b => f a = .ok b) items results := by
  induction items generalizing results with
  | nil =>
    rw [List.forall₂_nil_left_iff]
    constructor
    · rintro ⟨⟩
      rfl
    · rintro rfl
      rfl
  | cons a items ih =>
    rw [List.mapM_cons]
    constructor
    · intro all
      obtain ⟨b, first, rest⟩ := bind_eq_ok.mp all
      obtain ⟨bs, others, last⟩ := bind_eq_ok.mp rest
      cases last
      exact .cons first (ih.mp others)
    · intro all
      cases all with
      | cons first others => rw [first, ok_bind, ih.mpr others, ok_bind, pure_eq_ok]

theorem mapM_ok {items : List α} {f : α → Except ε β} {g : α → β}
    (each : ∀ a ∈ items, f a = .ok (g a)) : items.mapM f = .ok (items.map g) :=
  mapM_eq_ok.mpr (List.forall₂_map_right_iff.mpr (List.forall₂_same.mpr each))

theorem exists_of_mem {R : α → β → Prop} {xs : List α} {ys : List β} (all : List.Forall₂ R xs ys) {b : β}
    (inside : b ∈ ys) : ∃ a ∈ xs, R a b := by
  induction all with
  | nil => cases inside
  | cons first _ ih =>
    obtain rfl | inside := List.mem_cons.mp inside
    · exact ⟨_, List.mem_cons_self .., first⟩
    · obtain ⟨a, member, isTurn⟩ := ih inside
      exact ⟨a, List.mem_cons_of_mem _ member, isTurn⟩

theorem exists_of_mem_mapM {items : List α} {f : α → Except ε β} {results : List β} (all : items.mapM f = .ok results)
    {b : β} (inside : b ∈ results) : ∃ a ∈ items, f a = .ok b :=
  exists_of_mem (mapM_eq_ok.mp all) inside

theorem exists_forall₂ {R : α → β → Prop} {xs : List α} (each : ∀ a ∈ xs, ∃ b, R a b) :
    ∃ ys, List.Forall₂ R xs ys := by
  induction xs with
  | nil => exact ⟨[], .nil⟩
  | cons a xs ih =>
    obtain ⟨b, first⟩ := each a (List.mem_cons_self ..)
    obtain ⟨ys, rest⟩ := ih fun a member => each a (List.mem_cons_of_mem _ member)
    exact ⟨b :: ys, .cons first rest⟩

/-- Folding in what each item yields is folding over the list of the yields. -/
theorem foldlM_eq_ok {γ : Type} {items : List α} {f : α → Except ε β} {g : γ → β → γ} {start last : γ} :
    items.foldlM (fun c a => do return g c (← f a)) start = .ok last ↔
      ∃ results, List.Forall₂ (fun a b => f a = .ok b) items results ∧ results.foldl g start = last := by
  induction items generalizing start with
  | nil => simp [Except.ok.injEq]
  | cons a items ih =>
    simp only [List.foldlM_cons, bind_eq_ok, pure_eq_ok, List.forall₂_cons_left_iff]
    constructor
    · rintro ⟨_, ⟨b, first, ⟨⟩⟩, rest⟩
      obtain ⟨results, others, isLast⟩ := ih.mp rest
      exact ⟨b :: results, ⟨b, results, first, others, rfl⟩, isLast⟩
    · rintro ⟨_, ⟨b, results, first, others, rfl⟩, isLast⟩
      exact ⟨_, ⟨b, first, rfl⟩, ih.mpr ⟨results, others, isLast⟩⟩

theorem mapM_congr {items : List α} {f g : α → Except ε β} (each : ∀ a ∈ items, f a = g a) :
    items.mapM f = items.mapM g := by
  induction items with
  | nil => rfl
  | cons a items ih =>
    simp only [List.mapM_cons, each a (List.mem_cons_self ..),
      ih fun b member => each b (List.mem_cons_of_mem _ member)]

theorem foldlM_congr {items : List α} {f g : β → α → Except ε β}
    (each : ∀ b, ∀ a ∈ items, f b a = g b a) (start : β) : items.foldlM f start = items.foldlM g start := by
  induction items generalizing start with
  | nil => rfl
  | cons a items ih =>
    simp only [List.foldlM_cons, each start a (List.mem_cons_self ..)]
    congr 1
    funext next
    exact ih (fun b c member => each b c (List.mem_cons_of_mem _ member)) next

theorem forall₂_getElem? {R : α → β → Prop} {xs : List α} {ys : List β} : List.Forall₂ R xs ys ↔
    xs.length = ys.length ∧ ∀ (i : Nat) (x : α) (y : β), xs[i]? = some x → ys[i]? = some y → R x y := by
  rw [List.forall₂_iff_get]
  refine and_congr_right fun _ => ⟨fun all i x y isX isY => ?_, fun all i inX inY => ?_⟩
  · obtain ⟨inX, rfl⟩ := List.getElem?_eq_some_iff.mp isX
    obtain ⟨inY, rfl⟩ := List.getElem?_eq_some_iff.mp isY
    exact all i inX inY
  · exact all i _ _ (List.getElem?_eq_getElem inX) (List.getElem?_eq_getElem inY)

end Results
