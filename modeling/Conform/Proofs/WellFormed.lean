import Conform.Json
import Mathlib.Data.List.Induction
import Mathlib.Data.List.Nodup

namespace Conform

namespace Entries

variable {κ α : Type} [DecidableEq κ] {m : Entries κ α} {k : κ} {a : α}

theorem nodup_keys_insert (h : (keys m).Nodup) (k : κ) (a : α) : (keys (insert m k a)).Nodup := by
  rw [keys_insert]
  by_cases hk : k ∈ keys m
  · rwa [if_pos hk]
  · rw [if_neg hk]
    exact List.concat_eq_append ▸ h.concat hk

theorem mem_insert {e : κ × α} (h : e ∈ insert m k a) : e ∈ m ∨ e = (k, a) := by
  induction m with
  | nil => exact .inr (List.mem_singleton.1 h)
  | cons b rest ih =>
    rw [insert_cons] at h
    by_cases hb : b.1 = k
    · rw [if_pos hb] at h
      rcases List.mem_cons.1 h with rfl | h
      · exact .inr (by rw [hb])
      · exact .inl (List.mem_cons_of_mem _ h)
    · rw [if_neg hb] at h
      rcases List.mem_cons.1 h with rfl | h
      · exact .inl List.mem_cons_self
      · exact (ih h).imp_left (List.mem_cons_of_mem _)

/-- A key that stands once has the value that stands with it. -/
theorem find?_of_mem (hn : (keys m).Nodup) (h : (k, a) ∈ m) : find? m k = some a := by
  induction m with
  | nil => cases h
  | cons b rest ih =>
    obtain ⟨hb, hrest⟩ := List.nodup_cons.1 hn
    rw [find?, List.lookup_cons]
    rcases List.mem_cons.1 h with rfl | h
    · simp
    · have hne : k ≠ b.1 := fun he => hb (he ▸ List.mem_map_of_mem h)
      rw [beq_eq_false_iff_ne.2 hne]
      exact ih hrest h

theorem find?_eq_some_iff (hn : (keys m).Nodup) : find? m k = some a ↔ (k, a) ∈ m :=
  ⟨mem_of_find?, find?_of_mem hn⟩

theorem find?_eq_none_iff : find? m k = none ↔ k ∉ keys m := by
  simp only [find?, List.lookup_eq_none_iff, bne_iff_ne, keys, List.mem_map, not_exists, not_and]
  exact forall₂_congr fun e _ => ne_comm

theorem ofList_concat (es : List (κ × α)) (e : κ × α) :
    ofList (es ++ [e]) = insert (ofList es) e.1 e.2 := by
  simp only [ofList, List.foldl_append, List.foldl_cons, List.foldl_nil]

/-- Each key stands once, where it was inserted first. -/
theorem keys_ofList (es : List (κ × α)) : keys (ofList es) = (es.map Prod.fst).eraseDups := by
  induction es using List.reverseRecOn with
  | nil => rfl
  | append_singleton es e ih =>
    rw [ofList_concat, keys_insert, ih, List.map_append, List.map_singleton,
      List.eraseDups_append]
    by_cases h : e.1 ∈ es.map Prod.fst
    · simp [List.removeAll, h]
    · simp [List.removeAll, List.eraseDups_cons, h]

/-- What is found under a key was inserted under it last. -/
theorem find?_ofList (es : List (κ × α)) (k : κ) :
    find? (ofList es) k = find? es.reverse k := by
  induction es using List.reverseRecOn with
  | nil => rfl
  | append_singleton es e ih =>
    rw [ofList_concat, find?_insert, ih, List.reverse_append, List.reverse_singleton,
      List.singleton_append, find?, find?, List.lookup_cons]
    by_cases h : e.1 = k
    · simp [h]
    · rw [if_neg h, beq_eq_false_iff_ne.2 (Ne.symm h)]

theorem find?_ofList_of_last {before after : List (κ × α)} (h : k ∉ after.map Prod.fst) :
    find? (ofList (before ++ (k, a) :: after)) k = some a := by
  rw [find?_ofList, find?, List.lookup_eq_some_iff]
  refine ⟨after.reverse, before.reverse, by simp, fun e he => ?_⟩
  have hne : k ≠ e.1 := fun hk => h (hk ▸ List.mem_map_of_mem (List.mem_reverse.1 he))
  simpa using hne

theorem insert_of_notMem (h : k ∉ keys m) (a : α) : insert m k a = m ++ [(k, a)] := by
  induction m with
  | nil => rfl
  | cons e rest ih =>
    obtain ⟨l, b⟩ := e
    obtain ⟨hl, hrest⟩ := not_or.1 (mt List.mem_cons.2 h)
    rw [insert_cons, if_neg (Ne.symm hl), ih hrest, List.cons_append]

/-- Entries whose keys differ stay as they are. -/
theorem ofList_of_nodup {es : List (κ × α)} (h : (es.map Prod.fst).Nodup) : ofList es = es := by
  induction es using List.reverseRecOn with
  | nil => rfl
  | append_singleton es e ih =>
    rw [List.map_append, List.map_singleton, ← List.concat_eq_append, List.nodup_concat] at h
    rw [ofList_concat, ih h.2, insert_of_notMem h.1]

end Entries

namespace Value

/-- The values that can be built: at every depth, an object has each of its keys once. -/
inductive WellFormed : Value → Prop
  | scalar {x} : x.depth = 0 → WellFormed x
  | array {items} : (∀ x ∈ items, WellFormed x) → WellFormed (.array items)
  | object {o : Object} : o.keys.Nodup → (Entries.keys o.symbols).Nodup →
    (∀ e ∈ o.properties, WellFormed e.2) → (∀ e ∈ o.symbols, WellFormed e.2) →
    WellFormed (.object o)

namespace WellFormed

variable {items : List Value} {o : Object} {x : Value}

theorem item (h : (Value.array items).WellFormed) (hx : x ∈ items) : x.WellFormed := by
  cases h with
  | scalar h => exact absurd h (Nat.ne_of_gt (depth_array_pos items))
  | array h => exact h x hx

theorem property (h : (Value.object o).WellFormed) {e : String × Value} (he : e ∈ o.properties) :
    e.2.WellFormed := by
  cases h with
  | scalar h => exact absurd h (Nat.ne_of_gt (depth_object_pos o))
  | object _ _ h => exact h e he

theorem nodup_keys (h : (Value.object o).WellFormed) : o.keys.Nodup := by
  cases h with
  | scalar h => exact absurd h (Nat.ne_of_gt (depth_object_pos o))
  | object h => exact h

theorem element (h : (Value.array items).WellFormed) (i : Nat) :
    (items[i]?.getD .undefined).WellFormed := by
  cases hi : items[i]? with
  | none => exact .scalar rfl
  | some x => exact h.item (List.mem_of_getElem? hi)

theorem field (h : (Value.object o).WellFormed) (key : String) :
    ((o.get? key).getD .undefined).WellFormed := by
  cases hk : o.get? key with
  | none => exact .scalar rfl
  | some x => exact h.property (mem_properties_of_get? hk)

theorem get?_of_mem (h : (Value.object o).WellFormed) {e : String × Value} (he : e ∈ o.properties) :
    o.get? e.1 = some e.2 :=
  Entries.find?_of_mem h.nodup_keys he

theorem insert (h : (Value.object o).WellFormed) (key : String) (hx : x.WellFormed) :
    (Value.object (o.insert key x)).WellFormed := by
  cases h with
  | scalar h => exact absurd h (Nat.ne_of_gt (depth_object_pos o))
  | object hkeys hsymbols hp hs =>
    refine .object (Entries.nodup_keys_insert hkeys key x) hsymbols (fun e he => ?_) hs
    rcases Entries.mem_insert he with he | rfl
    · exact hp e he
    · exact hx

theorem insertSymbol (h : (Value.object o).WellFormed) (key : Symbol) (hx : x.WellFormed) :
    (Value.object (o.insertSymbol key x)).WellFormed := by
  cases h with
  | scalar h => exact absurd h (Nat.ne_of_gt (depth_object_pos o))
  | object hkeys hsymbols hp hs =>
    refine .object hkeys (Entries.nodup_keys_insert hsymbols key x) hp fun e he => ?_
    rcases Entries.mem_insert he with he | rfl
    · exact hs e he
    · exact hx

theorem empty : (Value.object .empty).WellFormed :=
  .object .nil .nil (fun _ h => nomatch h) fun _ h => nomatch h

theorem ofList {entries : List (String × Value)} (h : ∀ e ∈ entries, e.2.WellFormed) :
    (Value.object (.ofList entries)).WellFormed := by
  let build (m : Entries String Value) := entries.foldl (fun m e => m.insert e.1 e.2) m
  have hbuild : ∀ m, (Value.object ⟨m, []⟩).WellFormed →
      (Value.object ⟨build m, []⟩).WellFormed := by
    induction entries with
    | nil => exact fun m hm => hm
    | cons e rest ih =>
      obtain ⟨he, hrest⟩ := List.forall_mem_cons.1 h
      exact fun m hm => ih hrest _ (hm.insert e.1 he)
  exact hbuild [] empty

end WellFormed

section

variable {ν : Type} {binary64? : ν → Option Number}

mutual

theorem wellFormed_ofJsonWith : (j : JsonOf ν) → (ofJsonWith binary64? j).WellFormed
  | .null | .boolean _ | .number _ | .string _ => .scalar rfl
  | .array items => .array (wellFormed_ofJsonItems items)
  | .object members => .ofList (wellFormed_ofJsonMembers members)

theorem wellFormed_ofJsonItems :
    (items : List (JsonOf ν)) → ∀ x ∈ ofJsonItems binary64? items, x.WellFormed
  | [] => fun _ h => nomatch h
  | j :: rest => List.forall_mem_cons.2 ⟨wellFormed_ofJsonWith j, wellFormed_ofJsonItems rest⟩

theorem wellFormed_ofJsonMembers :
    (members : List (String × JsonOf ν)) → ∀ e ∈ ofJsonMembers binary64? members, e.2.WellFormed
  | [] => fun _ h => nomatch h
  | (_, j) :: rest =>
    List.forall_mem_cons.2 ⟨wellFormed_ofJsonWith j, wellFormed_ofJsonMembers rest⟩

end

end

end Value

end Conform
