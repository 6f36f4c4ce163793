import Conform.Proofs.Outputs

namespace Conform

namespace Value

mutual

/-- The value with nothing under symbols, and undefined wherever the reserved key is present. -/
def visible : Value → Value
  | .array items => .array (visibleItems items)
  | .object ⟨properties, _⟩ => .object ⟨visibleProperties properties, []⟩
  | x => x

def visibleItems : List Value → List Value
  | [] => []
  | x :: rest => visible x :: visibleItems rest

def visibleProperties : List (String × Value) → List (String × Value)
  | [] => []
  | (key, x) :: rest =>
    (key, if key = reservedKey then .undefined else visible x) :: visibleProperties rest

end

theorem visibleItems_eq_map (items : List Value) : visibleItems items = items.map visible := by
  induction items with
  | nil => rfl
  | cons x rest ih => rw [visibleItems, ih, List.map_cons]

theorem keys_visibleProperties (properties : List (String × Value)) :
    Entries.keys (visibleProperties properties) = Entries.keys properties := by
  induction properties with
  | nil => rfl
  | cons e rest ih => exact congrArg (e.1 :: ·) ih

theorem unreserved_visibleProperties (properties : List (String × Value)) :
    (visibleProperties properties).filter (·.1 != reservedKey) =
      (properties.filter (·.1 != reservedKey)).map fun e => (e.1, e.2.visible) := by
  induction properties with
  | nil => rfl
  | cons e rest ih =>
    obtain ⟨key, x⟩ := e
    by_cases h : key = reservedKey
    · simp [visibleProperties, h, ih]
    · simp [visibleProperties, h, ih]

theorem find?_visibleProperties (properties : List (String × Value)) {key : String}
    (hkey : key ≠ reservedKey) :
    Entries.find? (visibleProperties properties) key =
      (Entries.find? properties key).map visible := by
  induction properties with
  | nil => rfl
  | cons e rest ih =>
    obtain ⟨name, x⟩ := e
    simp only [Entries.find?, visibleProperties, List.lookup_cons] at ih ⊢
    by_cases h : key = name
    · subst h
      simp [hkey]
    · simpa [beq_eq_false_iff_ne.2 h] using ih

theorem visible_getD (o : Option Value) :
    (o.getD .undefined).visible = (o.map visible).getD .undefined := by
  cases o <;> rfl

theorem resembles_of_visible_eq {o o' : Object}
    (h : (object o).visible = (object o').visible) :
    o.Resembles True (fun x y => x.visible = y.visible) o' := by
  obtain ⟨properties, symbols⟩ := o
  obtain ⟨properties', symbols'⟩ := o'
  simp only [visible, Value.object.injEq, ObjectOf.mk.injEq, and_true] at h
  refine ⟨?_, fun key hkey => ?_, _, .refl _, fun _ => rfl, ?_⟩
  · have hkeys := congrArg Entries.keys h
    rw [keys_visibleProperties, keys_visibleProperties] at hkeys
    exact .of_eq hkeys
  · have hfind := congrArg (Entries.find? · key) h
    simp only [find?_visibleProperties _ hkey] at hfind
    rw [visible_getD, visible_getD]
    exact congrArg (·.getD .undefined) hfind
  · have hentries := congrArg (List.filter (·.1 != reservedKey)) h
    rw [unreserved_visibleProperties, unreserved_visibleProperties,
      map_eq_map_iff_forall₂] at hentries
    exact hentries.imp fun e e' he => Prod.mk.injEq .. ▸ he

theorem visible_likeness : Likeness True fun x y => x.visible = y.visible where
  scalar _ := rfl
  resembles {x y} h := by
    cases x with
    | array items =>
      cases y with
      | array items' =>
        simp only [visible, visibleItems_eq_map, Value.array.injEq] at h
        exact .array (map_eq_map_iff_forall₂.1 h)
      | object => simp [visible] at h
      | _ => cases h
    | object o =>
      cases y with
      | object o' => exact .object (resembles_of_visible_eq h)
      | array => simp [visible] at h
      | _ => cases h
    | _ =>
      cases y with
      | array | object => simp [visible] at h
      | _ => cases h <;> exact .scalar rfl

end Value

/-- What stands under symbols, and the values under the reserved key, decide nothing: neither a
check nor whether there is an output. -/
theorem check_of_visible_eq (fs : Forwards) (v : Validator) (hv : fs.Everywhere Validator.IsPlain v)
    (x y : Value) (h : x.visible = y.visible) :
    (∀ c p log, fs.check v x c p log = fs.check v y c p log) ∧
      (fs.HasOutput v x ↔ fs.HasOutput v y) := by
  refine ⟨fun c p log => ?_, Forwards.hasOutput_iff_of_likeness Value.visible_likeness hv h⟩
  have hoverlooks : fs.Everywhere (Validator.Overlooks True (· = ·)) v :=
    fun w hw => ⟨hv w hw, fun _ => .inl trivial⟩
  have hagree := Forwards.judge_agree Path.comparison_eq Value.visible_likeness hoverlooks h
  rcases Forwards.check_of_agree hv.isLocal_of_isPlain hagree with
    hnone | ⟨_, _, _, _, _, rfl, rfl, hboth⟩
  · rw [(hnone c p log).1, (hnone c p log).2]
  · rw [(hboth c p log).1, (hboth c p log).2]

def glossary : Forwards where
  cells := [some (.record (.leaf .string) (.union .list [.leaf .string, .forward ⟨0⟩]))]

def plainGlossary : Value :=
  .object ⟨[("cell", .object ⟨[("__proto__", .null), ("small", .string "room")], []⟩)], []⟩

/-- The same entries, and more that is hidden. -/
def hiddenGlossary : Value :=
  let mark : Symbol := ⟨0, none⟩
  .object ⟨[("cell", .object ⟨[("__proto__", .array [.null]), ("small", .string "room")],
    [(mark, .null)]⟩)], [(mark, .string "note")]⟩

theorem check_hiddenGlossary :
    glossary.Everywhere Validator.IsPlain (.forward ⟨0⟩) ∧
      plainGlossary.visible = hiddenGlossary.visible ∧
      (∀ p, glossary.check (.forward ⟨0⟩) hiddenGlossary none p [] = some ((true, none), [])) ∧
      glossary.HasOutput (.forward ⟨0⟩) hiddenGlossary := by
  have hv : glossary.Everywhere Validator.IsPlain (.forward ⟨0⟩) := by
    apply Forwards.everywhere_of_throughout <;>
      simp [glossary, Validator.throughout_iff, Validator.parts, Validator.IsPlain]
  have hvisible : plainGlossary.visible = hiddenGlossary.visible := rfl
  obtain ⟨hcheck, houtput⟩ := check_of_visible_eq glossary _ hv _ _ hvisible
  refine ⟨hv, hvisible, fun p => ?_, houtput.1 fun log => ⟨_, _, rfl⟩⟩
  rw [← hcheck]
  rfl

end Conform
