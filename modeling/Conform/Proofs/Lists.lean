import Mathlib.Data.List.Forall2

namespace Conform

variable {α β γ : Type} {R : β → γ → Prop}

theorem forall₂_map_map {l : List α} {f : α → β} {g : α → γ} (h : ∀ a ∈ l, R (f a) (g a)) :
    List.Forall₂ R (l.map f) (l.map g) := by
  rw [List.forall₂_map_left_iff, List.forall₂_map_right_iff, List.forall₂_same]
  exact h

theorem forall₂_mapIdx_mapIdx {l : List α} {f : Nat → α → β} {g : Nat → α → γ}
    (h : ∀ i a, l[i]? = some a → R (f i a) (g i a)) :
    List.Forall₂ R (l.mapIdx f) (l.mapIdx g) := by
  rw [List.mapIdx_eq_zipIdx_map, List.mapIdx_eq_zipIdx_map]
  apply forall₂_map_map
  intro a ha
  exact h a.2 a.1 (List.mem_zipIdx_iff_getElem?.1 ha)

theorem forall₂_flatMap_flatMap {l : List α} {f : α → List β} {g : α → List γ}
    (h : ∀ a ∈ l, List.Forall₂ R (f a) (g a)) :
    List.Forall₂ R (l.flatMap f) (l.flatMap g) := by
  induction l with
  | nil => exact .nil
  | cons a rest ih =>
    rw [List.flatMap_cons, List.flatMap_cons]
    obtain ⟨ha, hrest⟩ := List.forall_mem_cons.1 h
    exact List.rel_append ha (ih hrest)

section Related

variable {δ : Type} {T : α → β → Prop} {as : List α} {bs : List β}

theorem forall₂_mapIdx (h : List.Forall₂ T as bs) {U : γ → δ → Prop} {f : Nat → α → γ}
    {g : Nat → β → δ} (hfg : ∀ i a b, T a b → U (f i a) (g i b)) :
    List.Forall₂ U (as.mapIdx f) (bs.mapIdx g) := by
  induction h generalizing f g with
  | nil => exact .nil
  | cons h _ ih =>
    rw [List.mapIdx_cons, List.mapIdx_cons]
    exact .cons (hfg 0 _ _ h) (ih fun i => hfg (i + 1))

theorem forall₂_flatMap (h : List.Forall₂ T as bs) {U : γ → δ → Prop} {f : α → List γ}
    {g : β → List δ} (hfg : ∀ a b, T a b → List.Forall₂ U (f a) (g b)) :
    List.Forall₂ U (as.flatMap f) (bs.flatMap g) := by
  induction h with
  | nil => exact .nil
  | cons h _ ih =>
    rw [List.flatMap_cons, List.flatMap_cons]
    exact List.rel_append (hfg _ _ h) ih

theorem rel_getElem?_of_forall₂ (h : List.Forall₂ T as bs) (i : Nat) :
    Option.Rel T as[i]? bs[i]? := by
  induction h generalizing i with
  | nil => exact .none
  | cons h _ ih =>
    cases i with
    | zero => exact .some h
    | succ i => exact ih i

theorem none_or_some_of_rel {o : Option α} {o' : Option β} (h : Option.Rel T o o') :
    (o = none ∧ o' = none) ∨ ∃ a b, o = some a ∧ o' = some b ∧ T a b := by
  cases h with
  | none => exact .inl ⟨rfl, rfl⟩
  | some h => exact .inr ⟨_, _, rfl, rfl, h⟩

theorem forall₂_getElem? (h : List.Forall₂ T as bs) {a : α} {b : β} (hab : T a b) (i : Nat) :
    T (as[i]?.getD a) (bs[i]?.getD b) := by
  rcases none_or_some_of_rel (rel_getElem?_of_forall₂ h i) with ⟨ha, hb⟩ | ⟨_, _, ha, hb, h⟩
  · rwa [ha, hb]
  · rwa [ha, hb]

theorem exists_right_of_forall₂ (h : List.Forall₂ T as bs) {a : α} (ha : a ∈ as) :
    ∃ b ∈ bs, T a b := by
  induction h with
  | nil => cases ha
  | cons h _ ih =>
    rcases List.mem_cons.1 ha with rfl | ha
    · exact ⟨_, List.mem_cons_self, h⟩
    · obtain ⟨b, hb, hab⟩ := ih ha
      exact ⟨b, List.mem_cons_of_mem _ hb, hab⟩

theorem exists_left_of_forall₂ (h : List.Forall₂ T as bs) {b : β} (hb : b ∈ bs) :
    ∃ a ∈ as, T a b :=
  exists_right_of_forall₂ h.flip hb

theorem map_eq_map_iff_forall₂ {f : α → γ} {g : β → γ} :
    as.map f = bs.map g ↔ List.Forall₂ (fun a b => f a = g b) as bs := by
  rw [← List.forall₂_eq_eq_eq, List.forall₂_map_left_iff, List.forall₂_map_right_iff]

theorem map_eq_map_of_forall₂ (h : List.Forall₂ T as bs) {f : α → γ} {g : β → γ}
    (hfg : ∀ a b, T a b → f a = g b) : as.map f = bs.map g :=
  map_eq_map_iff_forall₂.2 (h.imp hfg)

theorem exists_append_of_forall₂ {as' : List α} (h : List.Forall₂ T (as ++ as') bs) :
    ∃ cs cs', List.Forall₂ T as cs ∧ List.Forall₂ T as' cs' ∧ bs = cs ++ cs' :=
  ⟨bs.take as.length, bs.drop as.length, (List.forall₂_take_append _ _ _ h.flip).flip,
    (List.forall₂_drop_append _ _ _ h.flip).flip, (List.take_append_drop as.length bs).symm⟩

/-- What related elements have in common, the lists have for all of theirs. -/
theorem forall_mem_iff_of_forall₂ (h : List.Forall₂ T as bs) {P : α → Prop} {Q : β → Prop}
    (hpq : ∀ a b, T a b → (P a ↔ Q b)) : (∀ a ∈ as, P a) ↔ ∀ b ∈ bs, Q b := by
  induction h with
  | nil => simp
  | cons h _ ih => rw [List.forall_mem_cons, List.forall_mem_cons, hpq _ _ h, ih]

/-- Pairs with the same first components are related when their second ones are. -/
theorem forall₂_pairs {l : List (γ × α)} {l' : List (γ × β)}
    (hfst : l.map Prod.fst = l'.map Prod.fst)
    (h : List.Forall₂ T (l.map Prod.snd) (l'.map Prod.snd)) :
    List.Forall₂ (fun e e' => e.1 = e'.1 ∧ T e.2 e'.2) l l' := by
  rw [map_eq_map_iff_forall₂] at hfst
  rw [List.forall₂_map_left_iff, List.forall₂_map_right_iff] at h
  induction hfst with
  | nil => exact .nil
  | cons he _ ih =>
    cases h with
    | cons ht h => exact .cons ⟨he, ht⟩ (ih h)

/-- Elements that are related from some number on are all related from one number on. -/
theorem exists_forall₂_of_mono {U : Nat → α → β → Prop}
    (hmono : ∀ m n a b, m ≤ n → U m a b → U n a b)
    (h : List.Forall₂ (fun a b => ∃ n, U n a b) as bs) : ∃ n, List.Forall₂ (U n) as bs := by
  induction h with
  | nil => exact ⟨0, .nil⟩
  | cons h _ ih =>
    obtain ⟨m, hm⟩ := h
    obtain ⟨n, hn⟩ := ih
    refine ⟨max m n, .cons (hmono _ _ _ _ (Nat.le_max_left m n) hm) (hn.imp fun a b => ?_)⟩
    exact hmono _ _ _ _ (Nat.le_max_right m n)

end Related

theorem exists_forall₂_iff {as : List β} :
    (∃ bs, List.Forall₂ R as bs) ↔ ∀ a ∈ as, ∃ b, R a b := by
  induction as with
  | nil => simp
  | cons a rest ih =>
    rw [List.forall_mem_cons, ← ih]
    constructor
    · rintro ⟨_, h⟩
      cases h with
      | cons h hrest => exact ⟨⟨_, h⟩, _, hrest⟩
    · rintro ⟨⟨b, h⟩, bs, hrest⟩
      exact ⟨b :: bs, .cons h hrest⟩

theorem getElem?_of_isPrefix {l l' : List α} (h : l <+: l') {i : Nat} (hi : i < l.length) :
    l'[i]? = l[i]? := by
  rw [List.prefix_iff_getElem?.1 h i hi, List.getElem?_eq_getElem hi]

/-- The first element with a property, and what stands before and after it, are unique. -/
theorem first_unique {P : α → Prop} {before before' after after' : List α} {a a' : α}
    (h : before ++ a :: after = before' ++ a' :: after') (hb : ∀ u ∈ before, ¬P u) (ha : P a)
    (hb' : ∀ u ∈ before', ¬P u) (ha' : P a') : before = before' ∧ a = a' ∧ after = after' := by
  induction before generalizing before' with
  | nil =>
    cases before' with
    | nil =>
      cases h
      exact ⟨rfl, rfl, rfl⟩
    | cons u rest' =>
      cases h
      exact absurd ha (hb' a List.mem_cons_self)
  | cons u rest ih =>
    cases before' with
    | nil =>
      cases h
      exact absurd ha' (hb a' List.mem_cons_self)
    | cons u' rest' =>
      obtain ⟨rfl, hrest⟩ := List.cons_eq_cons.1 h
      obtain ⟨rfl, rfl, rfl⟩ := ih hrest (List.forall_mem_of_forall_mem_cons hb)
        (List.forall_mem_of_forall_mem_cons hb')
      exact ⟨rfl, rfl, rfl⟩

/-- What stands before the first element with a property is unique, also when no element has it. -/
theorem append_unique {P : α → Prop} {before before' rest rest' : List α}
    (h : before ++ rest = before' ++ rest') (hb : ∀ u ∈ before, ¬P u) (hr : ∀ u ∈ rest.head?, P u)
    (hb' : ∀ u ∈ before', ¬P u) (hr' : ∀ u ∈ rest'.head?, P u) :
    before = before' ∧ rest = rest' := by
  cases rest with
  | nil =>
    cases rest' with
    | nil => simpa using h
    | cons a' after' =>
      have ha' : a' ∈ before := by
        rw [List.append_nil] at h
        simp [h]
      exact absurd (hr' a' rfl) (hb a' ha')
  | cons a after =>
    cases rest' with
    | nil =>
      have ha : a ∈ before' := by
        rw [List.append_nil] at h
        simp [← h]
      exact absurd (hr a rfl) (hb' a ha)
    | cons a' after' =>
      obtain ⟨rfl, rfl, rfl⟩ := first_unique h hb (hr a rfl) hb' (hr' a' rfl)
      exact ⟨rfl, rfl⟩

end Conform
