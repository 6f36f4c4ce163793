import Conform.Proofs.Agreement
import Conform.Proofs.Parts
import Conform.Proofs.Guarded

namespace Conform

namespace Validator

/-- The same validator with its fields in another order, or with its members, if these may be moved
too. -/
inductive Moves (members : Prop) : Validator → Validator → Prop
  | refl {v} : Moves members v v
  | fields {form fields fields' exact} : fields.Perm fields' →
    Moves members (.object form fields exact) (.object form fields' exact)
  | alternatives {form vs ws} : members → vs.Perm ws →
    Moves members (.union form vs) (.union form ws)
  | conditions {form vs ws} : members → vs.Perm ws →
    Moves members (.intersection form vs) (.intersection form ws)

/-- The same tree with its fields, and with its members if these may be moved, in another order at
any depth. -/
inductive Shuffles (members : Prop) : Validator → Validator → Prop
  | mk {v moved : Validator} {ws : List Validator} : v.Moves members moved →
    moved.parts.length = ws.length →
    (∀ a b, (a, b) ∈ moved.parts.zip ws → Shuffles members a b) →
    Shuffles members v (moved.withParts ws)

variable {members : Prop} {v w : Validator}

theorem Moves.parts (h : v.Moves members w) : v.parts.Perm w.parts := by
  cases h with
  | refl => exact .refl _
  | fields h => exact h.map _
  | alternatives _ h | conditions _ h => exact h

theorem Moves.isStructural_iff (h : v.Moves members w) : v.IsStructural ↔ w.IsStructural := by
  cases h <;> exact Iff.rfl

theorem Moves.isLocal_iff (h : v.Moves members w) : v.IsLocal ↔ w.IsLocal := by
  cases h <;> exact Iff.rfl

theorem Moves.eq_of_forward {f : Forward} (h : v.Moves members (.forward f)) :
    v = .forward f := by
  cases h
  rfl

theorem Shuffles.of_moves {moved : Validator} (ws : List Validator) (hmoves : v.Moves members moved)
    (h : List.Forall₂ (Shuffles members) moved.parts ws) :
    v.Shuffles members (moved.withParts ws) := by
  obtain ⟨hlength, hparts⟩ := List.forall₂_iff_zip.1 h
  exact .mk hmoves hlength fun a b => hparts

theorem shuffles_refl (members : Prop) (v : Validator) : v.Shuffles members v := by
  induction v using parts_induction with
  | step v ih =>
    have := Shuffles.of_moves _ .refl (List.forall₂_same.2 ih)
    rwa [withParts_parts] at this

theorem declares_perm {fields fields' : List (String × Validator)} (h : fields.Perm fields') :
    declares fields = declares fields' := funext fun _ => h.any_eq

end Validator

namespace Verdict

/-- Where every attempt returns, a search finds the answer that it looks for if any attempt gives
it. -/
theorem search_of_forall_isSome (stop : Bool) {cs : List (Option Verdict)}
    (h : ∀ c ∈ cs, c.isSome) :
    ∃ d, search stop cs = some d ∧ (d.passed = stop ↔ ∃ e, some e ∈ cs ∧ e.passed = stop) := by
  induction cs with
  | nil => exact ⟨_, rfl, by simp⟩
  | cons c rest ih =>
    obtain ⟨hc, hrest⟩ := List.forall_mem_cons.1 h
    obtain ⟨e, rfl⟩ := Option.isSome_iff_exists.1 hc
    obtain ⟨d, hd, hiff⟩ := ih hrest
    by_cases he : e.passed = stop
    · exact ⟨e, by simp [search, he], iff_of_true he ⟨e, List.mem_cons_self, he⟩⟩
    · refine ⟨e.orElse d, by simp [search, he, hd], ?_⟩
      rw [orElse, hiff]
      constructor
      · rintro ⟨f, hf, hp⟩
        exact ⟨f, List.mem_cons_of_mem _ hf, hp⟩
      · rintro ⟨f, hf, hp⟩
        rcases List.mem_cons.1 hf with hf | hf
        · cases hf
          exact absurd hp he
        · exact ⟨f, hf, hp⟩

/-- The order of attempts decides about what is found, and about the answer only if some attempt
does not return. -/
theorem search_perm (stop : Bool) {as bs : List (Option Verdict)} (h : as.Perm bs)
    (hsome : ∀ a ∈ as, a.isSome) : Agree (fun _ _ => True) (search stop as) (search stop bs) := by
  obtain ⟨d, hd, hiff⟩ := search_of_forall_isSome stop hsome
  obtain ⟨e, he, hiff'⟩ := search_of_forall_isSome stop
    fun b hb => hsome b (h.mem_iff.2 hb)
  rw [hd, he]
  refine .some ⟨?_, trivial, trivial⟩
  have hstop : d.passed = stop ↔ e.passed = stop := by simp only [hiff, hiff', h.mem_iff]
  cases hp : d.passed <;> cases hq : e.passed <;> cases stop <;> simp_all

end Verdict

namespace Forwards

variable {fs fs' : Forwards} {members : Prop} {L : List Path → List Path → Prop}
  {v w : Validator} {x : Value}

/-- A reference stands in the second tree for what it stands for in the first one, shuffled. -/
def Reshuffles (fs fs' : Forwards) (members : Prop) : Validator → Prop
  | .forward f => Option.Rel (Validator.Shuffles members) (fs.target? f) (fs'.target? f)
  | _ => True

theorem everywhere_reshuffles
    (h : ∀ f, Option.Rel (Validator.Shuffles members) (fs.target? f) (fs'.target? f))
    (v : Validator) : fs.Everywhere (fs.Reshuffles fs' members) v := by
  intro w _
  cases w with
  | forward f => exact h f
  | _ => trivial

/-- Moved fields are judged in another order, and moved members are asked in another order. -/
theorem judge_of_moves (hL : Path.Comparison L) (hperm : ∀ a b, List.Perm a b → L a b)
    (hmembers : members → ∀ a b, L a b) (hreturns : ∀ u ∈ v.inPlace, (fs.judge u x).isSome)
    (h : v.Moves members w) : Verdict.Agree L (fs.judge v x) (fs.judge w x) := by
  cases h with
  | refl => exact Verdict.agree_refl hL _
  | fields h =>
    cases x with
    | object o =>
      rw [judge_object, judge_object, Validator.declares_perm h]
      refine Verdict.Agree.map (fun d e hd => hd.and hL (.refl hL _)) ?_
      exact (Verdict.everyPart_perm ((h.filter _).map _)).mono hperm
    | _ =>
      rw [judge_eq, judge_eq]
      exact Verdict.agree_refl hL _
  | alternatives hm h =>
    rw [judge_union, judge_union]
    refine (Verdict.search_perm true (h.map _) ?_).mono fun a b _ => hmembers hm a b
    exact List.forall_mem_map.2 hreturns
  | conditions hm h =>
    rw [judge_intersection, judge_intersection]
    refine (Verdict.search_perm false (h.map _) ?_).mono fun a b _ => hmembers hm a b
    exact List.forall_mem_map.2 hreturns

/-- Judgements agree when those of the parts do that a validator can ask for. -/
theorem judge_withParts (hL : Path.Comparison L)
    (hforward : ∀ f, v = .forward f → Verdict.Agree L (fs.judge v x) (fs'.judge v x))
    {ws : List Validator}
    (h : List.Forall₂ (fun a b => ∀ y, y.depth < x.depth ∨ y = x ∧ ¬v.IsStructural →
      Verdict.Agree L (fs.judge a y) (fs'.judge b y)) v.parts ws) :
    Verdict.Agree L (fs.judge v x) (fs'.judge (v.withParts ws) x) := by
  cases v with
  | leaf | extension =>
    rw [judge_eq, judge_eq]
    exact Verdict.agree_refl hL _
  | optional v =>
    obtain ⟨w, _, hw, -, rfl⟩ := List.forall₂_cons_left_iff.1 h
    rw [Validator.withParts, judge_optional, judge_optional]
    split
    · exact Verdict.agree_refl hL _
    · exact hw x (.inr ⟨rfl, id⟩)
  | nullable v =>
    obtain ⟨w, _, hw, -, rfl⟩ := List.forall₂_cons_left_iff.1 h
    rw [Validator.withParts, judge_nullable, judge_nullable]
    split
    · exact Verdict.agree_refl hL _
    · exact hw x (.inr ⟨rfl, id⟩)
  | erased v =>
    obtain ⟨w, _, hw, -, rfl⟩ := List.forall₂_cons_left_iff.1 h
    rw [Validator.withParts, judge_erased, judge_erased]
    exact hw x (.inr ⟨rfl, id⟩)
  | wrapped v =>
    obtain ⟨w, _, hw, -, rfl⟩ := List.forall₂_cons_left_iff.1 h
    rw [Validator.withParts, judge_wrapped, judge_wrapped]
    exact hw x (.inr ⟨rfl, id⟩)
  | array v =>
    obtain ⟨w, _, hw, -, rfl⟩ := List.forall₂_cons_left_iff.1 h
    cases x with
    | array items =>
      rw [Validator.withParts, judge_array, judge_array]
      refine Verdict.everyPart_agree hL (forall₂_mapIdx_mapIdx fun i y hi => ⟨rfl, ?_⟩)
      exact hw y (.inl (Value.depth_item_lt (List.mem_of_getElem? hi)))
    | _ =>
      rw [judge_eq, judge_eq]
      exact Verdict.agree_refl hL _
  | tuple form vs =>
    cases x with
    | array items =>
      rw [Validator.withParts, judge_tuple, judge_tuple,
        show vs.length = ws.length from h.length_eq]
      refine Verdict.everyPart_agree hL (forall₂_map_map fun i _ => ?_)
      have hdepth := Value.depth_element_lt items i
      change List.Forall₂ _ vs ws at h
      rw [Validator.elementVerdict, Validator.elementVerdict]
      rcases none_or_some_of_rel (rel_getElem?_of_forall₂ h i) with ⟨ha, hb⟩ | ⟨a, b, ha, hb, hab⟩
      · rw [ha, hb]
        exact ⟨rfl, Verdict.agree_refl hL _⟩
      · rw [ha, hb]
        exact ⟨rfl, hab _ (.inl hdepth)⟩
    | _ =>
      rw [judge_eq, judge_eq]
      exact Verdict.agree_refl hL _
  | record k v =>
    obtain ⟨k', _, hk, hrest, rfl⟩ := List.forall₂_cons_left_iff.1 h
    obtain ⟨v', _, hv, -, rfl⟩ := List.forall₂_cons_left_iff.1 hrest
    cases x with
    | object o =>
      rw [Validator.withParts, judge_record, judge_record]
      refine Verdict.everyPart_agree hL (forall₂_flatMap_flatMap fun e he => ?_)
      have hkey := hk (.string e.1) (.inl (Value.depth_object_pos o))
      have hentry := hv e.2 (.inl (Value.depth_property_lt (List.mem_of_mem_filter he)))
      exact .cons ⟨rfl, hkey⟩ (.cons ⟨rfl, hentry⟩ .nil)
    | _ =>
      rw [judge_eq, judge_eq]
      exact Verdict.agree_refl hL _
  | object form fields exact =>
    cases x with
    | object o =>
      have hlength : fields.length ≤ ws.length := by
        simpa [Validator.parts] using h.length_eq.le
      have hfields := List.rel_filter (p := (·.1 != reservedKey)) (q := (·.1 != reservedKey))
        (fun a b hab => by simp only [hab.1]) (Validator.forall₂_fields h)
      rw [Validator.withParts, judge_object, judge_object,
        Validator.declares_congr (Validator.names_zip hlength)]
      refine Verdict.Agree.map (fun d e hd => hd.and hL (.refl hL _)) ?_
      refine Verdict.everyPart_agree hL ?_
      rw [List.forall₂_map_left_iff, List.forall₂_map_right_iff]
      refine hfields.imp ?_
      rintro ⟨name, a⟩ ⟨_, b⟩ ⟨rfl, hab⟩
      exact ⟨rfl, hab _ (.inl (Value.depth_field_lt o name))⟩
    | _ =>
      rw [judge_eq, judge_eq]
      exact Verdict.agree_refl hL _
  | union form vs =>
    rw [Validator.withParts, judge_union, judge_union]
    refine Verdict.search_agree hL _ ?_
    rw [List.forall₂_map_left_iff, List.forall₂_map_right_iff]
    exact h.imp fun a b hab => hab x (.inr ⟨rfl, id⟩)
  | intersection form vs =>
    rw [Validator.withParts, judge_intersection, judge_intersection]
    refine Verdict.search_agree hL _ ?_
    rw [List.forall₂_map_left_iff, List.forall₂_map_right_iff]
    exact h.imp fun a b hab => hab x (.inr ⟨rfl, id⟩)
  | forward f => exact hforward f rfl

theorem judge_of_reshuffles {f : Forward} (hL : Path.Comparison L)
    (hf : fs.Reshuffles fs' members (.forward f))
    (h : ∀ a b, fs.target? f = some a → a.Shuffles members b →
      Verdict.Agree L (fs.judge a x) (fs'.judge b x)) :
    Verdict.Agree L (fs.judge (.forward f) x) (fs'.judge (.forward f) x) := by
  rcases none_or_some_of_rel hf with ⟨ht, ht'⟩ | ⟨a, b, ht, ht', hab⟩
  · rw [judge_forward_of_undefined x ht, judge_forward_of_undefined x ht']
    exact Verdict.agree_refl hL _
  · rw [judge_forward_of_defined x ht, judge_forward_of_defined x ht']
    exact h a b ht hab

/-- Shuffled validators are judged alike: the answer is the same, and where only fields are moved
the places that are found are the same in another order. -/
theorem judge_of_shuffles (hL : Path.Comparison L) (hperm : ∀ a b, List.Perm a b → L a b)
    (hmembers : members → ∀ a b, L a b) (hg : fs.Guarded v)
    (hfs : fs.Everywhere (fs.Reshuffles fs' members) v) (h : v.Shuffles members w) (x : Value) :
    Verdict.Agree L (fs.judge v x) (fs'.judge w x) := by
  refine hg.value_induction (motive := fun v x => fs.Guarded v →
    fs.Everywhere (fs.Reshuffles fs' members) v → ∀ w, v.Shuffles members w →
      Verdict.Agree L (fs.judge v x) (fs'.judge w x)) ?_ x hg hfs w h
  intro v x ih hg hfs w h
  obtain ⟨hmoves, hlength, hparts⟩ := h
  -- The fields and members are first moved, and then their own parts are shuffled.
  refine (judge_of_moves hL hperm hmembers (fun u hu => ?_) hmoves).trans hL ?_
  · exact (hg.uses (stays_of_mem_inPlace hu).uses).judge_isSome x
  refine judge_withParts hL ?_ (List.forall₂_iff_zip.2 ⟨hlength, fun {a b} hm y hy => ?_⟩)
  · rintro f rfl
    obtain rfl := hmoves.eq_of_forward
    refine judge_of_reshuffles hL hfs.here fun a b ht hab => ?_
    exact ih a x (.target ht) (.inr ⟨rfl, .target ht⟩) (hg.uses (.target ht)) (hfs.target ht) b hab
  · have huse : fs.Uses v a := .part (hmoves.parts.mem_iff.2 (List.of_mem_zip hm).1)
    have hstays : y = x ∧ ¬_ → y = x ∧ fs.Stays v a := fun hy =>
      ⟨hy.1, stays_iff.2 ⟨huse, fun hs => hy.2 (hmoves.isStructural_iff.1 hs)⟩⟩
    exact ih a y huse (hy.imp_right hstays) (hg.uses huse) (hfs.uses huse) b (hparts a b hm)

theorem simulates_of_shuffles : fs.Simulates fs' fun v w =>
    v.Shuffles members w ∧ fs.Everywhere (fs.Reshuffles fs' members) v where
  uses {v w u'} h hu' := by
    obtain ⟨@⟨_, moved, ws, hmoves, hlength, hparts⟩, hfs⟩ := h
    have hforward : ∀ f, moved = .forward f →
        Option.Rel (Validator.Shuffles members) (fs.target? f) (fs'.target? f) := by
      rintro f rfl
      obtain rfl := hmoves.eq_of_forward
      exact hfs.here
    obtain ⟨u, hu, hshuffles⟩ := exists_uses_of_withParts hforward
      (List.forall₂_iff_zip.2 ⟨hlength, fun hm => hparts _ _ hm⟩) hu'
    have huse : fs.Uses v u := by
      cases hu with
      | part hp => exact .part (hmoves.parts.mem_iff.2 hp)
      | target ht =>
        obtain rfl := hmoves.eq_of_forward
        exact .target ht
    exact ⟨u, ⟨hshuffles, hfs.uses huse⟩, huse⟩
  structural {v w} h hs := by
    obtain ⟨⟨hmoves, -, -⟩, -⟩ := h
    exact Validator.isStructural_withParts.2 (hmoves.isStructural_iff.1 hs)

end Forwards

/-- The order of members and fields does not change the answer, at any depth, and that of fields
alone only reorders the places. -/
theorem check_of_shuffles (fs fs' : Forwards) (members : Prop) (v w : Validator)
    (hv : fs.Everywhere Validator.IsLocal v) (hg : fs.Guarded v)
    (hfs : fs.Everywhere (fs.Reshuffles fs' members) v) (h : v.Shuffles members w) (x : Value) :
    ∃ (b : Bool) (paths paths' undefined undefined' : List Path),
      (∀ c p log,
        fs.check v x c p log = some ((b, c.map (·.recordAll p paths)),
          log ++ undefined.map (.forwardUndefined <| p ++ ·)) ∧
        fs'.check w x c p log = some ((b, c.map (·.recordAll p paths')),
          log ++ undefined'.map (.forwardUndefined <| p ++ ·))) ∧
      (¬members → paths.Perm paths' ∧ undefined.Perm undefined') := by
  have hw : fs'.Everywhere Validator.IsLocal w := by
    refine Forwards.simulates_of_shuffles.everywhere (fun a b hab ha => ?_) ⟨h, hfs⟩ hv
    obtain ⟨⟨hmoves, -, -⟩, -⟩ := hab
    exact Validator.isLocal_withParts.2 (hmoves.isLocal_iff.1 ha)
  have hagree := Forwards.judge_of_shuffles (Path.comparison_perm.imp ¬members)
    (fun _ _ h _ => h) (fun hm _ _ hn => absurd hm hn) hg hfs h x
  obtain ⟨d, hd⟩ := Option.isSome_iff_exists.1 (hg.judge_isSome x)
  rcases hagree.none_or_some with ⟨hnone, -⟩ | ⟨d, e, hd, he, h⟩
  · cases hd.symm.trans hnone
  · refine ⟨d.passed, _, _, _, _, fun c p log => ⟨?_, ?_⟩, fun hn =>
      ⟨h.failures hn, h.undefined hn⟩⟩
    · exact Forwards.check_eq_of_judge hv hd c p log
    · rw [h.passed]
      exact Forwards.check_eq_of_judge hw he c p log

/-- Stops on a trail, each with a name that is asked for twice. -/
def trail : Forwards where
  cells := [some (.object .list [("name", .union .list [.leaf .string, .leaf .number]),
    ("next", .optional (.forward ⟨0⟩)), ("name", .leaf .string)] true)]

def trailByNext : Forwards where
  cells := [some (.object .list [("next", .optional (.forward ⟨0⟩)), ("name", .leaf .string),
    ("name", .union .list [.leaf .string, .leaf .number])] true)]

def trailByNumber : Forwards where
  cells := [some (.object .list [("next", .optional (.forward ⟨0⟩)), ("name", .leaf .string),
    ("name", .union .list [.leaf .number, .leaf .string])] true)]

/-- The first stop has no proper name, and the second one has only a number. -/
def twoStops : Value :=
  .object ⟨[("name", .null), ("next", .object ⟨[("name", .number .zero)], []⟩)], []⟩

def faultsOnTrail : List Path :=
  [[.key "name"], [.key "next", .key "name"], [.key "next"], [.key "name"]]

theorem trail_fields_perm (v : Validator) :
    [("name", v), ("next", .optional (.forward ⟨0⟩)), ("name", .leaf .string)].Perm
      [("next", .optional (.forward ⟨0⟩)), ("name", .leaf .string), ("name", v)] :=
  (List.perm_append_singleton ("name", v) [_, _]).symm

theorem trail_reshuffles_byNext :
    trail.Everywhere (trail.Reshuffles trailByNext False) (.forward ⟨0⟩) := by
  refine Forwards.everywhere_reshuffles (fun f => ?_) _
  obtain ⟨_ | n⟩ := f
  · exact .some (.of_moves _ (.fields (trail_fields_perm _))
      (List.forall₂_same.2 fun v _ => Validator.shuffles_refl False v))
  · exact .none

theorem trail_reshuffles_byNumber :
    trail.Everywhere (trail.Reshuffles trailByNumber True) (.forward ⟨0⟩) := by
  have hname : Validator.Shuffles True (.union .list [.leaf .string, .leaf .number])
      (.union .list [.leaf .number, .leaf .string]) :=
    .of_moves [_, _] (.alternatives trivial (.swap ..))
      (List.forall₂_same.2 fun v _ => Validator.shuffles_refl True v)
  refine Forwards.everywhere_reshuffles (fun f => ?_) _
  obtain ⟨_ | n⟩ := f
  · refine .some (.of_moves [_, _, _] (.fields (trail_fields_perm _)) ?_)
    exact .cons (Validator.shuffles_refl True _) (.cons (Validator.shuffles_refl True _)
      (.cons hname .nil))
  · exact .none

theorem check_twoStops :
    (trail.Everywhere Validator.IsLocal (.forward ⟨0⟩) ∧ trail.Guarded (.forward ⟨0⟩) ∧
      trail.Everywhere (trail.Reshuffles trailByNext False) (.forward ⟨0⟩) ∧
      trail.Everywhere (trail.Reshuffles trailByNumber True) (.forward ⟨0⟩)) ∧
      (∃ paths, faultsOnTrail.Perm paths ∧ ∀ c p log,
        trailByNext.check (.forward ⟨0⟩) twoStops c p log =
          some ((false, c.map (·.recordAll p paths)), log)) ∧
      ∀ c p log, ∃ c' log',
        trailByNumber.check (.forward ⟨0⟩) twoStops c p log = some ((false, c'), log') := by
  have hv : trail.Everywhere Validator.IsLocal (.forward ⟨0⟩) := by
    apply Forwards.everywhere_of_throughout <;>
      simp [trail, Validator.throughout_iff, Validator.parts, Validator.IsLocal]
  have hg : trail.Guarded (.forward ⟨0⟩) := by
    refine Forwards.guarded_of_cells (fun w u hw hs => ?_) _
    simp only [trail, List.mem_singleton, Option.some.injEq] at hw
    subst hw
    cases hs
  have hnext := trail_reshuffles_byNext
  have hnumber := trail_reshuffles_byNumber
  have hfaults : trail.check (.forward ⟨0⟩) twoStops (some .empty) .root [] =
      some ((false, some ⟨faultsOnTrail⟩), []) := rfl
  refine ⟨⟨hv, hg, hnext, hnumber⟩, ?_, fun c p log => ?_⟩
  · obtain ⟨b, paths, paths', undefined, undefined', hboth, hperm⟩ :=
      check_of_shuffles trail trailByNext False _ _ hv hg hnext (Validator.shuffles_refl _ _)
        twoStops
    obtain ⟨hpaths, hundefined⟩ := hperm id
    rw [(hboth _ _ _).1] at hfaults
    simp only [Context.recordAll, Context.empty, Path.root, Option.map_some, List.nil_append,
      List.map_id', Option.some.injEq, Prod.mk.injEq, Context.mk.injEq,
      List.map_eq_nil_iff] at hfaults
    obtain ⟨⟨rfl, rfl⟩, rfl⟩ := hfaults
    obtain rfl := List.nil_perm.1 hundefined
    exact ⟨paths', hpaths, fun c p log => by simpa using (hboth c p log).2⟩
  · obtain ⟨b, paths, paths', undefined, undefined', hboth, -⟩ :=
      check_of_shuffles trail trailByNumber True _ _ hv hg hnumber (Validator.shuffles_refl _ _)
        twoStops
    rw [(hboth _ _ _).1, Option.some.injEq, Prod.mk.injEq, Prod.mk.injEq] at hfaults
    obtain ⟨⟨rfl, -⟩, -⟩ := hfaults
    exact ⟨_, _, (hboth c p log).2⟩

end Conform
