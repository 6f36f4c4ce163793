import Conform.Proofs.WellFormed
import Conform.Proofs.Respelling

namespace Conform

variable {ν : Type}

namespace JsonOf

inductive HasDistinctKeys : JsonOf ν → Prop
  | null : HasDistinctKeys .null
  | boolean (b : Bool) : HasDistinctKeys (.boolean b)
  | number (n : ν) : HasDistinctKeys (.number n)
  | string (s : String) : HasDistinctKeys (.string s)
  | array {items : List (JsonOf ν)} : (∀ j ∈ items, HasDistinctKeys j) →
    HasDistinctKeys (.array items)
  | object {members : List (String × JsonOf ν)} : (members.map Prod.fst).Nodup →
    (∀ m ∈ members, HasDistinctKeys m.2) → HasDistinctKeys (.object members)

/-- Keys lead to members of objects and indices to items of arrays. The decimal text of an index may
stand for it, and the other way round. -/
inductive HasPart : JsonOf ν → Segment → JsonOf ν → Prop
  | member {members : List (String × JsonOf ν)} {key : String} {j : JsonOf ν} :
    (key, j) ∈ members → HasPart (.object members) (.key key) j
  | numbered {members : List (String × JsonOf ν)} {i : Nat} {j : JsonOf ν} :
    (toString i, j) ∈ members → HasPart (.object members) (.index i) j
  | item {items : List (JsonOf ν)} {i : Nat} {j : JsonOf ν} :
    items[i]? = some j → HasPart (.array items) (.index i) j
  | spelled {items : List (JsonOf ν)} {i : Nat} {j : JsonOf ν} :
    i < indexBound → items[i]? = some j → HasPart (.array items) (.key (toString i)) j

inductive Leads : JsonOf ν → Path → JsonOf ν → Prop
  | here (j : JsonOf ν) : Leads j [] j
  | step {j k l : JsonOf ν} {s : Segment} {p : Path} : HasPart j s k → Leads k p l →
    Leads j (s :: p) l

variable {j k : JsonOf ν} {s : Segment}

theorem HasPart.hasDistinctKeys (h : j.HasPart s k) (hj : j.HasDistinctKeys) :
    k.HasDistinctKeys := by
  cases h with
  | member hm | numbered hm =>
    cases hj with
    | object _ hall => exact hall _ hm
  | item hi | spelled _ hi =>
    cases hj with
    | array hall => exact hall _ (List.mem_of_getElem? hi)

theorem HasPart.unique {k' : JsonOf ν} (hj : j.HasDistinctKeys) (h : j.HasPart s k)
    (h' : j.HasPart s k') : k = k' := by
  cases h with
  | member hm =>
    cases hj with
    | object hn =>
      cases h' with
      | member hm' => exact congrArg Prod.snd (List.inj_on_of_nodup_map hn hm hm' rfl)
  | numbered hm =>
    cases hj with
    | object hn =>
      cases h' with
      | numbered hm' => exact congrArg Prod.snd (List.inj_on_of_nodup_map hn hm hm' rfl)
  | item hi =>
    cases h' with
    | item hi' => exact Option.some.inj (hi.symm.trans hi')
  | @spelled items i _ hlt hi =>
    generalize hs : Segment.key (toString i) = s at h'
    cases h' with
    | item => cases hs
    | @spelled _ i' _ hlt' hi' =>
      have hkey := canonicalIndex?_eq_some_iff.2 ⟨hlt, (Segment.key.inj hs).symm⟩
      have hkey' := canonicalIndex?_eq_some_iff.2 ⟨hlt', rfl⟩
      obtain rfl : i = i' := Option.some.inj (hkey.symm.trans hkey')
      exact Option.some.inj (hi.symm.trans hi')

theorem Leads.unique {p : Path} {k' : JsonOf ν} (hj : j.HasDistinctKeys) (h : j.Leads p k)
    (h' : j.Leads p k') : k = k' := by
  induction h with
  | here =>
    cases h'
    rfl
  | step hs _ ih =>
    cases h' with
    | step hs' h' =>
      obtain rfl := hs.unique hj hs'
      exact ih (hs.hasDistinctKeys hj) h'

theorem Leads.hasDistinctKeys {p : Path} (h : j.Leads p k) (hj : j.HasDistinctKeys) :
    k.HasDistinctKeys := by
  induction h with
  | here => exact hj
  | step hs _ ih => exact ih (hs.hasDistinctKeys hj)

end JsonOf

namespace Value

variable (binary64? : ν → Option Number)

theorem ofJsonItems_eq_map (items : List (JsonOf ν)) :
    ofJsonItems binary64? items = items.map (ofJsonWith binary64?) := by
  induction items with
  | nil => rfl
  | cons j rest ih => rw [ofJsonItems, ih, List.map_cons]

theorem ofJsonMembers_eq_map (members : List (String × JsonOf ν)) :
    ofJsonMembers binary64? members =
      members.map fun m => (m.1, ofJsonWith binary64? m.2) := by
  induction members with
  | nil => rfl
  | cons m rest ih => rw [ofJsonMembers, ih, List.map_cons]

theorem ofJson_array (items : List (JsonOf ν)) :
    ofJsonWith binary64? (.array items) = .array (items.map (ofJsonWith binary64?)) := by
  rw [ofJsonWith, ofJsonItems_eq_map]

/-- Members with distinct keys become properties one by one, in their order. -/
theorem ofJson_object {members : List (String × JsonOf ν)} (h : (members.map Prod.fst).Nodup) :
    ofJsonWith binary64? (.object members) =
      .object ⟨members.map fun m => (m.1, ofJsonWith binary64? m.2), []⟩ := by
  rw [ofJsonWith, ofJsonMembers_eq_map, ObjectOf.ofList, Entries.ofList_of_nodup]
  rwa [List.map_map]

variable {binary64?} {j : JsonOf ν}

theorem get?_ofJson_iff {members : List (String × JsonOf ν)} (h : (members.map Prod.fst).Nodup)
    {key : String} {y : Value} :
    ObjectOf.get? ⟨members.map fun m => (m.1, ofJsonWith binary64? m.2), []⟩ key = some y ↔
      ∃ k, (key, k) ∈ members ∧ y = ofJsonWith binary64? k := by
  rw [ObjectOf.get?, Entries.find?_eq_some_iff (by rwa [Entries.keys, List.map_map]), List.mem_map]
  constructor
  · rintro ⟨⟨_, k⟩, hm, he⟩
    cases he
    exact ⟨k, hm, rfl⟩
  · rintro ⟨k, hm, rfl⟩
    exact ⟨(key, k), hm, rfl⟩

theorem getElem?_ofJson_iff {items : List (JsonOf ν)} {i : Nat} {y : Value} :
    (items.map (ofJsonWith binary64?))[i]? = some y ↔
      ∃ k, items[i]? = some k ∧ y = ofJsonWith binary64? k := by
  rw [List.getElem?_map, Option.map_eq_some_iff]
  exact exists_congr fun k => and_congr_right fun _ => eq_comm

/-- One step finds the same in the value as in the document. -/
theorem part?_ofJson_iff (hj : j.HasDistinctKeys) {s : Segment} {y : Value} :
    (ofJsonWith binary64? j).part? s = some y ↔
      ∃ k, j.HasPart s k ∧ y = ofJsonWith binary64? k := by
  cases hj with
  | null | boolean | number | string =>
    refine iff_of_false ?_ ?_
    · rw [ofJsonWith]
      cases s <;> exact (Option.some_ne_none y).symm
    · rintro ⟨k, h, -⟩
      cases h
  | @array items =>
    rw [ofJson_array]
    cases s with
    | symbol =>
      refine iff_of_false (Option.some_ne_none y).symm ?_
      rintro ⟨k, h, -⟩
      cases h
    | index i =>
      rw [part?, getElem?_ofJson_iff]
      refine exists_congr fun k => and_congr_left fun _ => ⟨.item, fun h => ?_⟩
      cases h with
      | item hi => exact hi
    | key name =>
      rw [part?, Option.bind_eq_some_iff]
      constructor
      · rintro ⟨i, hi, hy⟩
        obtain ⟨hlt, rfl⟩ := canonicalIndex?_eq_some_iff.1 hi
        obtain ⟨k, hk, rfl⟩ := getElem?_ofJson_iff.1 hy
        exact ⟨k, .spelled hlt hk, rfl⟩
      · rintro ⟨k, h, rfl⟩
        cases h with
        | @spelled _ i _ hlt hi =>
          exact ⟨i, canonicalIndex?_eq_some_iff.2 ⟨hlt, rfl⟩, getElem?_ofJson_iff.2 ⟨k, hi, rfl⟩⟩
  | @object members hn =>
    rw [ofJson_object _ hn]
    cases s with
    | symbol =>
      refine iff_of_false (Option.some_ne_none y).symm ?_
      rintro ⟨k, h, -⟩
      cases h
    | index i =>
      rw [part?, get?_ofJson_iff hn]
      refine exists_congr fun k => and_congr_left fun _ => ⟨.numbered, fun h => ?_⟩
      cases h with
      | numbered hm => exact hm
    | key name =>
      rw [part?, get?_ofJson_iff hn]
      refine exists_congr fun k => and_congr_left fun _ => ⟨.member, fun h => ?_⟩
      cases h with
      | member hm => exact hm

/-- A path finds the same in the value as in the document. -/
theorem access_ofJson_iff (hj : j.HasDistinctKeys) {p : Path} {y : Value} :
    (ofJsonWith binary64? j).access p = some y ↔
      ∃ k, j.Leads p k ∧ y = ofJsonWith binary64? k := by
  induction p generalizing j with
  | nil =>
    rw [access, Option.some.injEq]
    constructor
    · rintro rfl
      exact ⟨j, .here j, rfl⟩
    · rintro ⟨k, ⟨_⟩, rfl⟩
      rfl
  | cons s rest ih =>
    rw [access, Option.bind_eq_some_iff]
    constructor
    · rintro ⟨z, hz, hy⟩
      obtain ⟨k, hk, rfl⟩ := (part?_ofJson_iff hj).1 hz
      obtain ⟨l, hl, rfl⟩ := (ih (hk.hasDistinctKeys hj)).1 hy
      exact ⟨l, .step hk hl, rfl⟩
    · rintro ⟨l, h, rfl⟩
      cases h with
      | step hk hl =>
        exact ⟨_, (part?_ofJson_iff hj).2 ⟨_, hk, rfl⟩,
          (ih (hk.hasDistinctKeys hj)).2 ⟨l, hl, rfl⟩⟩

theorem access_ofJson_eq_none_iff (hj : j.HasDistinctKeys) {p : Path} :
    (ofJsonWith binary64? j).access p = none ↔ ¬∃ k, j.Leads p k := by
  rw [Option.eq_none_iff_forall_ne_some, not_exists]
  constructor
  · exact fun h k hk => h _ ((access_ofJson_iff hj).2 ⟨k, hk, rfl⟩)
  · rintro h y hy
    obtain ⟨k, hk, -⟩ := (access_ofJson_iff hj).1 hy
    exact h k hk

/-- The value is made of what documents are made of, at every depth. -/
inductive IsDocument : Value → Prop
  | null : IsDocument .null
  | boolean (b : Bool) : IsDocument (.boolean b)
  | number (n : Number) : IsDocument (.number n)
  | string (s : String) : IsDocument (.string s)
  | array {items : List Value} : (∀ x ∈ items, IsDocument x) → IsDocument (.array items)
  | object {properties : List (String × Value)} : (∀ e ∈ properties, IsDocument e.2) →
    IsDocument (.object ⟨properties, []⟩)

theorem isDocument_ofJson (hj : j.HasDistinctKeys) : (ofJsonWith binary64? j).IsDocument := by
  induction hj with
  | null => exact .null
  | boolean b => exact .boolean b
  | number n => exact .number _
  | string s => exact .string s
  | array _ ih =>
    rw [ofJson_array]
    exact .array (List.forall_mem_map.2 ih)
  | object hn _ ih =>
    rw [ofJson_object _ hn]
    exact .object (List.forall_mem_map.2 ih)

theorem IsDocument.ne_undefined {x : Value} (h : x.IsDocument) : x ≠ .undefined := by
  rintro rfl
  cases h

end Value

/-- A validator is asked about undefined exactly where the path of its failure leads nowhere, if
undefined itself stands nowhere in the input. -/
theorem Failure.Navigates.rejected_undefined_iff {fs : Forwards} {v w : Validator} {x y : Value}
    {f : Failure} (h : f.Navigates fs v x) (hx : ∀ p, x.access p ≠ some .undefined)
    (hc : f.cause = .rejected w y) : y = .undefined ↔ x.access f.path = none := by
  obtain ⟨parent, s, container, u, h⟩ := h
  have haccess : x.access f.path = container.part? s := by
    rw [h.path, Value.access_push, h.access, Option.bind_some]
  have hcause := h.cause
  rw [hc] at hcause
  obtain ⟨-, -, hy⟩ := hcause
  rw [haccess]
  cases hp : container.part? s with
  | none => exact iff_of_true (by rw [hy, hp]; rfl) rfl
  | some z =>
    refine iff_of_false ?_ (Option.some_ne_none z)
    rintro rfl
    rw [hp, Option.getD_some] at hy
    exact hx f.path (by rw [haccess, hp, hy])

/-- A value made from a document is navigated like the document, so a recorded path leads nowhere
exactly when the document has nothing there. -/
theorem ofJson_navigates (binary64? : ν → Option Number) (j : JsonOf ν)
    (hj : j.HasDistinctKeys) :
    (∀ p y, (Value.ofJsonWith binary64? j).access p = some y ↔
        ∃ k, j.Leads p k ∧ y = Value.ofJsonWith binary64? k) ∧
      (∀ p k k', j.Leads p k → j.Leads p k' → k = k') ∧
      (∀ p members, j.Leads p (.object members) →
        ∃ o, (Value.ofJsonWith binary64? j).access p = some (.object o) ∧
          o.keys = members.map Prod.fst) ∧
      (Value.ofJsonWith binary64? j).IsDocument ∧
      ∀ (fs : Forwards) (v : Validator), fs.Everywhere Validator.IsBuiltin v →
        ∀ c c' log log' b,
          fs.validate v (Value.ofJsonWith binary64? j) c log = some ((b, c'), log') →
          ∃ d, fs.judge v (Value.ofJsonWith binary64? j) = some d ∧
            c'.errors = c.errors ++ d.failures.map Failure.path ∧ ∀ f ∈ d.failures,
              ((Value.ofJsonWith binary64? j).access f.path = none ↔ ¬∃ k, j.Leads f.path k) ∧
              ∀ w y, f.cause = .rejected w y → (y = .undefined ↔ ¬∃ k, j.Leads f.path k) := by
  have hdefined : ∀ p, (Value.ofJsonWith binary64? j).access p ≠ some .undefined := by
    intro p h
    obtain ⟨k, hk, hy⟩ := (Value.access_ofJson_iff hj).1 h
    exact (Value.isDocument_ofJson (hk.hasDistinctKeys hj)).ne_undefined hy.symm
  refine ⟨fun p y => Value.access_ofJson_iff hj, fun p k k' h h' => h.unique hj h', ?_,
    Value.isDocument_ofJson hj, ?_⟩
  · intro p members h
    cases h.hasDistinctKeys hj with
    | object hn =>
      refine ⟨⟨members.map fun m => (m.1, Value.ofJsonWith binary64? m.2), []⟩,
        (Value.access_ofJson_iff hj).2 ⟨_, h, (Value.ofJson_object binary64? hn).symm⟩, ?_⟩
      rw [ObjectOf.keys, Entries.keys, List.map_map]
      rfl
  · intro fs v hv c c' log log' b h
    rw [Forwards.validate_eq fun w hw => (hv w hw).isLocal, Option.map_eq_some_iff] at h
    obtain ⟨d, hd, h⟩ := h
    cases h
    refine ⟨d, hd, rfl, fun f hf => ⟨Value.access_ofJson_eq_none_iff hj, fun w y hc => ?_⟩⟩
    have hnavigates :=
      Forwards.navigates_of_mem_failures hv (Value.wellFormed_ofJsonWith j) hd f hf
    rw [hnavigates.rejected_undefined_iff hdefined hc]
    exact Value.access_ofJson_eq_none_iff hj

/-- Two people, one of whom has no name. -/
def register : JsonOf Int :=
  .object [("people", .array [.object [("name", .string "Ann"), ("7", .number 3)], .object []])]

def namedPeople : Validator :=
  .object .list [("people", .array (.object .list [("name", .leaf .string)] false))] true

theorem ofJson_register :
    (register.HasDistinctKeys ∧ Forwards.Everywhere {} Validator.IsBuiltin namedPeople) ∧
      (Value.ofJsonWith (fun n => some (.ofInt n)) register).access
        [.key "people", .key "0", .index 7] = some (.number (.ofInt 3)) ∧
      ¬∃ k, register.Leads [.key "people", .index 1, .key "name"] k := by
  have hj : register.HasDistinctKeys := by
    refine .object (by simp) (List.forall_mem_singleton.2 (.array ?_))
    have hann : JsonOf.HasDistinctKeys
        (.object [("name", .string "Ann"), ("7", .number 3)] : JsonOf Int) :=
      .object (by simp) (by simp [JsonOf.HasDistinctKeys.string, JsonOf.HasDistinctKeys.number])
    simpa using ⟨hann, .object (by simp) (by simp)⟩
  have hv : Forwards.Everywhere {} Validator.IsBuiltin namedPeople := by
    apply Forwards.everywhere_of_throughout <;>
      simp [namedPeople, Validator.throughout_iff, Validator.parts, Validator.IsBuiltin]
  have hleads : register.Leads [.key "people", .key "0", .index 7] (.number 3) := by
    refine .step (.member (.head _)) (.step (.spelled (i := 0) (by decide) rfl) ?_)
    exact .step (.numbered (.tail _ (.head _))) (.here _)
  obtain ⟨haccess, -, -, -, hrecorded⟩ := ofJson_navigates (fun n => some (.ofInt n)) register hj
  refine ⟨⟨hj, hv⟩, (haccess _ _).2 ⟨_, hleads, rfl⟩, ?_⟩
  have hrun : Forwards.validate {} namedPeople
      (Value.ofJsonWith (fun n => some (.ofInt n)) register) .empty [] = some ((false,
        ⟨[[.key "people", .index 1, .key "name"], [.key "people", .index 1], [.key "people"]]⟩),
        []) := rfl
  obtain ⟨d, -, herrors, hall⟩ := hrecorded {} namedPeople hv _ _ _ _ _ hrun
  have hmem : [.key "people", .index 1, .key "name"] ∈ d.failures.map Failure.path := by
    have hpaths : _ = d.failures.map Failure.path := herrors
    rw [← hpaths]
    exact List.mem_cons_self
  obtain ⟨f, hf, hpath⟩ := List.mem_map.1 hmem
  rw [← hpath, ← (hall f hf).1, hpath]
  rfl

end Conform
