import Conform.Proofs.Outputs
import Conform.Proofs.WellFormed

namespace Conform

namespace Entries

variable {κ α : Type} [DecidableEq κ] {m m' : Entries κ α}

/-- Where no key stands twice, the order does not matter to what is found. -/
theorem find?_perm (h : m.Perm m') (hn : (keys m).Nodup) (k : κ) : find? m k = find? m' k := by
  have hkeys : (keys m).Perm (keys m') := h.map _
  by_cases hk : k ∈ keys m
  · obtain ⟨⟨_, a⟩, ha, rfl⟩ := List.mem_map.1 hk
    rw [find?_of_mem hn ha, find?_of_mem (hkeys.nodup_iff.1 hn) (h.mem_iff.1 ha)]
  · rw [find?_eq_none_iff.2 hk, find?_eq_none_iff.2 fun hk' => hk (hkeys.mem_iff.2 hk')]

abbrev Related (R : α → α → Prop) : Entries κ α → Entries κ α → Prop :=
  List.Forall₂ fun e e' => e.1 = e'.1 ∧ R e.2 e'.2

variable {R : α → α → Prop}

theorem Related.find? (h : Related R m m') {a : α} (ha : R a a) (k : κ) :
    R ((find? m k).getD a) ((find? m' k).getD a) := by
  induction h with
  | nil => exact ha
  | @cons e e' _ _ he _ ih =>
    rw [Entries.find?, Entries.find?, List.lookup_cons, List.lookup_cons, ← he.1]
    split
    · exact he.2
    · exact ih

end Entries

namespace Value

/-- The same value, but for the order in which the properties of its objects were inserted. -/
inductive Reorders : Value → Value → Prop
  | scalar {x} : x.depth = 0 → Reorders x x
  | array {items items'} : List.Forall₂ Reorders items items' →
    Reorders (.array items) (.array items')
  | object {o o' : Object} {moved : Entries String Value} : o.properties.Perm moved →
    Entries.keys moved = o'.keys →
    List.Forall₂ Reorders (Entries.values moved) (Entries.values o'.properties) →
    Entries.keys o.symbols = Entries.keys o'.symbols →
    List.Forall₂ Reorders (Entries.values o.symbols) (Entries.values o'.symbols) →
    Reorders (.object o) (.object o')

/-- Reordered objects that are well formed: the properties are first moved, and then their values
are reordered. -/
theorem resembles_of_reorders {o o' : Object} {moved : Entries String Value}
    (ho : (object o).WellFormed) (hmoved : o.properties.Perm moved)
    (hkeys : Entries.keys moved = o'.keys)
    (h : List.Forall₂ Reorders (Entries.values moved) (Entries.values o'.properties)) :
    o.Resembles False (fun x y => x.WellFormed ∧ x.Reorders y) o' := by
  have hvalues : ∀ x ∈ Entries.values moved, x.WellFormed := by
    intro x hx
    obtain ⟨e, he, rfl⟩ := List.mem_map.1 hx
    exact ho.property (hmoved.mem_iff.2 he)
  have hrelated : Entries.Related (fun x y => x.WellFormed ∧ x.Reorders y) moved o'.properties :=
    forall₂_pairs hkeys ((List.forall₂_and_left _ _).2 ⟨hvalues, h⟩)
  refine ⟨?_, fun key _ => ?_, _, hmoved.filter _, False.elim, ?_⟩
  · exact (hmoved.map _).trans (.of_eq hkeys)
  · rw [ObjectOf.get?, Entries.find?_perm hmoved ho.nodup_keys]
    exact hrelated.find? ⟨.scalar rfl, .scalar rfl⟩ key
  · exact List.rel_filter (fun e e' he => by simp only [he.1]) hrelated

theorem reorders_likeness : Likeness False fun x y => x.WellFormed ∧ x.Reorders y where
  scalar h := ⟨.scalar h, .scalar h⟩
  resembles {x y} h := by
    obtain ⟨hx, h⟩ := h
    cases h with
    | scalar h => exact .scalar h
    | array h => exact .array ((List.forall₂_and_left _ _).2 ⟨fun x hm => hx.item hm, h⟩)
    | object hmoved hkeys h => exact .object (resembles_of_reorders hx hmoved hkeys h)

end Value

def Forwards.Permutes (fs : Forwards) (v : Validator) (a b : List Path) : Prop :=
  a.Perm b ∧ ((fs.Everywhere fun w => ¬w.IsRecord) v → a = b)

/-- The order of properties decides about the order of the places that are found, if records are
met, and about nothing else. -/
theorem check_of_reorders (fs : Forwards) (v : Validator) (hv : fs.Everywhere Validator.IsPlain v)
    (x y : Value) (hx : x.WellFormed) (h : x.Reorders y) :
    ((∀ c p log, fs.check v x c p log = none ∧ fs.check v y c p log = none) ∨
      ∃ b paths paths' undefined undefined',
        fs.Permutes v paths paths' ∧ fs.Permutes v undefined undefined' ∧
        ∀ c p log,
          fs.check v x c p log = some ((b, c.map (·.recordAll p paths)),
            log ++ undefined.map (.forwardUndefined <| p ++ ·)) ∧
          fs.check v y c p log = some ((b, c.map (·.recordAll p paths')),
            log ++ undefined'.map (.forwardUndefined <| p ++ ·))) ∧
      (fs.HasOutput v x ↔ fs.HasOutput v y) := by
  refine ⟨?_, Forwards.hasOutput_iff_of_likeness Value.reorders_likeness hv ⟨hx, h⟩⟩
  have hcomparison : Path.Comparison (fs.Permutes v) :=
    Path.comparison_perm.and (Path.comparison_eq.imp _)
  -- If a record is met, the second half of the comparison asks for nothing.
  have hoverlooks : fs.Everywhere (Validator.Overlooks False (fs.Permutes v)) v :=
    fun w hw => ⟨hv w hw, fun hrecord => .inr fun a b hab =>
      ⟨hab, fun hnone => absurd hrecord (hnone w hw)⟩⟩
  exact Forwards.check_of_agree hv.isLocal_of_isPlain
    (Forwards.judge_agree hcomparison Value.reorders_likeness hoverlooks ⟨hx, h⟩)

def stock : Validator :=
  .record (.leaf .string) (.object .list [("count", .leaf .number), ("unit", .leaf .string)] true)

def shelves : Value :=
  .object ⟨[("nails", .object ⟨[("count", .null), ("unit", .null)], []⟩),
    ("paint", .object ⟨[("count", .null), ("unit", .string "litre")], []⟩)], []⟩

/-- The same shelves, and the entries of each, read from the other end. -/
def restackedShelves : Value :=
  .object ⟨[("paint", .object ⟨[("unit", .string "litre"), ("count", .null)], []⟩),
    ("nails", .object ⟨[("unit", .null), ("count", .null)], []⟩)], []⟩

theorem wellFormed_shelves : shelves.WellFormed := by
  have hentry : ∀ unit : Value, unit.depth = 0 →
      (Value.object ⟨[("count", .null), ("unit", unit)], []⟩).WellFormed := by
    intro unit hunit
    refine .object (by simp [ObjectOf.keys, Entries.keys]) .nil ?_ (List.forall_mem_nil _)
    simp only [List.forall_mem_cons]
    exact ⟨.scalar rfl, .scalar hunit, List.forall_mem_nil _⟩
  refine .object (by decide) .nil ?_ (List.forall_mem_nil _)
  simp only [List.forall_mem_cons]
  exact ⟨hentry _ rfl, hentry _ rfl, List.forall_mem_nil _⟩

theorem shelves_reorders : shelves.Reorders restackedShelves := by
  have hentry : ∀ unit : Value, unit.depth = 0 →
      (Value.object ⟨[("count", .null), ("unit", unit)], []⟩).Reorders
        (.object ⟨[("unit", unit), ("count", .null)], []⟩) := by
    intro unit hunit
    exact .object (.swap ..) rfl (.cons (.scalar hunit) (.cons (.scalar rfl) .nil)) rfl .nil
  exact .object (.swap ..) rfl (.cons (hentry _ rfl) (.cons (hentry _ rfl) .nil)) rfl .nil

def faultsOnShelves : List Path :=
  [[.key "nails", .key "count"], [.key "nails", .key "unit"], [.key "nails"],
    [.key "paint", .key "count"], [.key "paint"]]

theorem check_restackedShelves :
    (({} : Forwards).Everywhere Validator.IsPlain stock ∧ shelves.WellFormed ∧
      shelves.Reorders restackedShelves) ∧
      ∃ paths, faultsOnShelves.Perm paths ∧
        ∀ c p log, ({} : Forwards).check stock restackedShelves c p log =
          some ((false, c.map (·.recordAll p paths)), log) := by
  have hv : ({} : Forwards).Everywhere Validator.IsPlain stock := by
    apply Forwards.everywhere_of_throughout <;>
      simp [stock, Validator.throughout_iff, Validator.parts, Validator.IsPlain]
  refine ⟨⟨hv, wellFormed_shelves, shelves_reorders⟩, ?_⟩
  have hfaults : ({} : Forwards).check stock shelves (some .empty) .root [] =
      some ((false, some ⟨faultsOnShelves⟩), []) := rfl
  rcases (check_of_reorders {} stock hv _ _ wellFormed_shelves shelves_reorders).1 with
    hnone | ⟨b, paths, paths', undefined, undefined', hpaths, hundefined, hboth⟩
  · rw [(hnone _ _ _).1] at hfaults
    cases hfaults
  · rw [(hboth _ _ _).1] at hfaults
    simp only [Context.recordAll, Context.empty, Path.root, Option.map_some, List.nil_append,
      List.map_id', Option.some.injEq, Prod.mk.injEq, Context.mk.injEq,
      List.map_eq_nil_iff] at hfaults
    obtain ⟨⟨rfl, rfl⟩, rfl⟩ := hfaults
    obtain rfl := List.nil_perm.1 hundefined.1
    exact ⟨paths', hpaths.1, fun c p log => by simpa using (hboth c p log).2⟩

end Conform
