import Conform.Proofs.Certification
import Conform.Proofs.Covering

namespace Conform

def Checking.Accepting (c : Checking Bool) : Prop := ∀ r s, c r = some s → s.1 = true

namespace Checking

theorem accepting_pure : Accepting (pure true) := by
  intro r s h
  cases h
  rfl

theorem accepting_bind {α : Type} {c : Checking α} {k : α → Checking Bool}
    (hk : ∀ a, (k a).Accepting) : (c >>= k).Accepting := by
  intro r s h
  obtain ⟨⟨a, r'⟩, -, h⟩ := Option.bind_eq_some_iff.1 h
  exact hk a r' s h

theorem Accepting.bind {c : Checking Bool} {k : Bool → Checking Bool} (hc : c.Accepting)
    (hk : (k true).Accepting) : (c >>= k).Accepting := by
  intro r s h
  obtain ⟨⟨b, r'⟩, hb, h⟩ := Option.bind_eq_some_iff.1 h
  obtain rfl : b = true := hc r _ hb
  exact hk r' s h

theorem accepting_everyPart {parts : List Part} (h : ∀ part ∈ parts, part.check.Accepting) :
    (everyPart parts).Accepting := by
  induction parts with
  | nil => exact accepting_pure
  | cons part rest ih =>
    obtain ⟨hpart, hrest⟩ := List.forall_mem_cons.1 h
    exact hpart.bind (accepting_bind fun _ => (ih hrest).bind accepting_pure)

theorem accepting_anyOf {cs : List (Checking Bool)} {c : Checking Bool} (hm : c ∈ cs)
    (hc : c.Accepting) : (anyOf cs).Accepting := by
  induction cs with
  | nil => cases hm
  | cons d rest ih =>
    rcases List.mem_cons.1 hm with rfl | hm
    · exact hc.bind accepting_pure
    · refine accepting_bind fun b => ?_
      cases b with
      | true => exact accepting_pure
      | false => exact ih hm

theorem accepting_allOf {cs : List (Checking Bool)} (h : ∀ c ∈ cs, c.Accepting) :
    (allOf cs).Accepting := by
  induction cs with
  | nil => exact accepting_pure
  | cons c rest ih =>
    obtain ⟨hc, hrest⟩ := List.forall_mem_cons.1 h
    exact hc.bind (ih hrest)

end Checking

open Checking

namespace Forwards

/-- No check of the input returns false, whoever asks and with whatever fuel. -/
def Tolerates (fs : Forwards) (v : Validator) (x : Value) : Prop :=
  ∀ n p, (fs.checkWithin n v x p).Accepting

/-- The second tree comes from the first one by changes that let more pass, at any of its
validators. Validators that stay do not read the context. -/
inductive Widens (fs fs' : Forwards) : Validator → Validator → Prop
  | replaced {v w} : (∀ x, fs.Passes v x → fs'.Tolerates w x) → Widens fs fs' v w
  | via {v u w} : (∀ x, fs.Passes v x → fs.Passes u x) → Widens fs fs' u w → Widens fs fs' v w
  | parts {v : Validator} {ws : List Validator} : v.IsLocal → v.parts.length = ws.length →
    (∀ a b, (a, b) ∈ v.parts.zip ws → Widens fs fs' a b) → Widens fs fs' v (v.withParts ws)
  | optional {v w} : Widens fs fs' v w → Widens fs fs' v (.optional w)
  | nullable {v w} : Widens fs fs' v w → Widens fs fs' v (.nullable w)
  | inexact {v form fields} : Widens fs fs' v (.object form fields true) →
    Widens fs fs' v (.object form fields false)
  | alternatives {form} {vs kept ws : List Validator} : vs.length = kept.length →
    (∀ a b, (a, b) ∈ vs.zip kept → Widens fs fs' a b) → kept.Sublist ws →
    Widens fs fs' (.union form vs) (.union form ws)
  | conditions {form} {vs kept ws : List Validator} : kept.Sublist vs → kept.length = ws.length →
    (∀ a b, (a, b) ∈ kept.zip ws → Widens fs fs' a b) →
    Widens fs fs' (.intersection form vs) (.intersection form ws)

variable {fs fs' : Forwards} {v w : Validator} {x : Value} {n : Nat}

theorem exists_passes_of_union {form : Form} {vs : List Validator}
    (h : fs.Passes (.union form vs) x) : ∃ v ∈ vs, fs.Passes v x := by
  obtain ⟨d, hd, hp⟩ := h
  rw [judge_union] at hd
  rcases Verdict.search_map_cases hd with ⟨hf, -⟩ | ⟨-, before, v, after, rfl, -, hv⟩
  · cases hf.symm.trans hp
  · exact ⟨v, by simp, hv⟩

section Parts

variable {enter : Forward → Value → Path → Checking Bool} {vs ws : List Validator}

theorem accepting_elementParts
    (h : List.Forall₂ (fun a b => ∀ y, fs.Passes a y → ∀ p, (b.checkWith enter y p).Accepting)
      vs ws) {items : List Value} (hlength : items.length ≤ vs.length)
    (hitems : ∀ i (hi : i < vs.length), fs.Passes vs[i] (items[i]?.getD .undefined)) (p : Path)
    (i : Nat) : ∀ part ∈ Validator.elementParts enter ws items p i, part.check.Accepting := by
  induction h generalizing items i with
  | nil =>
    obtain rfl := List.eq_nil_of_length_eq_zero (Nat.le_zero.1 hlength)
    exact List.forall_mem_nil _
  | cons h _ ih =>
    refine List.forall_mem_cons.2 ⟨h _ ?_ _, ih ?_ (fun j hj => ?_) (i + 1)⟩
    · have hhead := hitems 0 (Nat.succ_pos _)
      cases items <;> exact hhead
    · simpa using hlength
    · rw [List.getElem?_tail]
      exact hitems (j + 1) (Nat.succ_lt_succ hj)

theorem accepting_inexact {form : Form} {fields : List (String × Validator)} {p : Path}
    (h : ((Validator.object form fields true).checkWith enter x p).Accepting) :
    ((Validator.object form fields false).checkWith enter x p).Accepting := by
  cases x with
  | object o =>
    intro r s hs
    rw [Validator.checkWith] at h hs
    obtain ⟨⟨passed, after⟩, hparts, hs⟩ := Option.bind_eq_some_iff.1 hs
    cases passed with
    | true =>
      cases hs
      rfl
    | false =>
      cases hs
      exact h r (false, after) (Option.bind_eq_some_iff.2 ⟨_, hparts, rfl⟩)
  | _ => exact h

/-- What passes is accepted when every part accepts what passes the part that it replaces. -/
theorem accepting_withParts (hlocal : v.IsLocal)
    (hforward : ∀ f, v = .forward f → ∀ p, (enter f x p).Accepting)
    (h : List.Forall₂ (fun a b => ∀ y, fs.Passes a y → ∀ p, (b.checkWith enter y p).Accepting)
      v.parts ws) (hx : fs.Passes v x) (p : Path) :
    ((v.withParts ws).checkWith enter x p).Accepting := by
  cases v with
  | leaf l =>
    change Accepting (pure (l.accepts x))
    rw [passes_leaf.1 hx]
    exact accepting_pure
  | extension e =>
    rw [Passes, judge_extension, passed_some_iff] at hx
    intro r s hs
    cases hs
    exact (Extension.IsLocal.check hlocal x p r.context).trans hx
  | optional v =>
    obtain ⟨w, _, hw, -, rfl⟩ := List.forall₂_cons_left_iff.1 h
    rw [Validator.withParts, Validator.checkWith]
    split
    · exact accepting_pure
    · exact hw x ((passes_optional.1 hx).resolve_left ‹_›) p
  | nullable v =>
    obtain ⟨w, _, hw, -, rfl⟩ := List.forall₂_cons_left_iff.1 h
    rw [Validator.withParts, Validator.checkWith]
    split
    · exact accepting_pure
    · exact hw x ((passes_nullable.1 hx).resolve_left ‹_›) p
  | erased v =>
    obtain ⟨w, _, hw, -, rfl⟩ := List.forall₂_cons_left_iff.1 h
    exact hw x (passes_erased.1 hx) p
  | wrapped v =>
    obtain ⟨w, _, hw, -, rfl⟩ := List.forall₂_cons_left_iff.1 h
    exact hw x (passes_wrapped.1 hx) p
  | array v =>
    obtain ⟨w, _, hw, -, rfl⟩ := List.forall₂_cons_left_iff.1 h
    obtain ⟨items, rfl, hitems⟩ := passes_array.1 hx
    refine accepting_everyPart fun part hpart => ?_
    obtain ⟨i, hi, rfl⟩ := List.mem_mapIdx.1 hpart
    exact hw _ (hitems _ (List.getElem_mem hi)) _
  | tuple form vs =>
    obtain ⟨items, rfl, hlength, hitems⟩ := passes_tuple.1 hx
    exact accepting_everyPart (accepting_elementParts h hlength hitems p 0)
  | record k v =>
    obtain ⟨k', _, hk, hrest, rfl⟩ := List.forall₂_cons_left_iff.1 h
    obtain ⟨v', _, hv, -, rfl⟩ := List.forall₂_cons_left_iff.1 hrest
    obtain ⟨o, rfl, hentries⟩ := passes_record.1 hx
    refine accepting_everyPart fun part hpart => ?_
    obtain ⟨e, he, hpart⟩ := List.mem_flatMap.1 hpart
    obtain ⟨he, hname⟩ := mem_unreserved.1 he
    obtain ⟨hkey, hvalue⟩ := hentries e he hname
    rcases List.mem_pair.1 hpart with rfl | rfl
    · exact hk _ hkey _
    · exact hv _ hvalue _
  | object form fields exact =>
    obtain ⟨o, rfl, hfields, hexact⟩ := passes_object.1 hx
    have hlength : fields.length ≤ ws.length := by simpa [Validator.parts] using h.length_eq.le
    rw [Validator.withParts, Validator.checkWith, Validator.fieldParts_eq_map,
      Validator.declares_congr (Validator.names_zip hlength)]
    refine (accepting_everyPart fun part hpart => ?_).bind ?_
    · obtain ⟨field', hfield', rfl⟩ := List.mem_map.1 hpart
      obtain ⟨hm', hname⟩ := mem_unreserved.1 hfield'
      obtain ⟨field, hm, hsame, hw⟩ := exists_left_of_forall₂ (Validator.forall₂_fields h) hm'
      exact hw _ (hsame ▸ hfields field hm (hsame ▸ hname)) _
    · cases exact with
      | false => exact accepting_pure
      | true =>
        have hall : o.keys.all (declares fields) = true := List.all_eq_true.2 (hexact rfl)
        rw [if_pos rfl, hall]
        exact accepting_pure
  | union form vs =>
    obtain ⟨v, hm, hv⟩ := exists_passes_of_union hx
    obtain ⟨w, hm', hw⟩ := exists_right_of_forall₂ h hm
    rw [Validator.withParts, Validator.checkWith, Validator.memberChecks_eq_map]
    exact accepting_anyOf (List.mem_map_of_mem hm') (hw x hv p)
  | intersection form vs =>
    rw [Validator.withParts, Validator.checkWith, Validator.memberChecks_eq_map]
    refine accepting_allOf (List.forall_mem_map.2 fun w hm' => ?_)
    obtain ⟨v, hm, hw⟩ := exists_left_of_forall₂ h hm'
    exact hw x (passes_intersection.1 hx v hm) p
  | forward f => exact hforward f rfl p

end Parts

theorem Widens.accepting_of (hforward : ∀ f x, fs.Passes (.forward f) x → ∀ p,
      (fs'.checkWithin n (.forward f) x p).Accepting)
    (h : fs.Widens fs' v w) (hx : fs.Passes v x) (p : Path) :
    (fs'.checkWithin n w x p).Accepting := by
  induction h generalizing x p with
  | replaced h => exact h x hx n p
  | via h _ ih => exact ih (h x hx) p
  | @parts v ws hlocal hlength _ ih =>
    rw [checkWithin_eq]
    refine accepting_withParts hlocal (fun f hf p => ?_) ?_ hx p
    · subst hf
      have := hforward f x hx p
      rwa [checkWithin_eq] at this
    · refine List.forall₂_iff_zip.2 ⟨hlength, fun hm y hy p => ?_⟩
      rw [← checkWithin_eq]
      exact ih _ _ hm hy p
  | optional _ ih =>
    rw [checkWithin_eq, Validator.checkWith]
    split
    · exact accepting_pure
    · rw [← checkWithin_eq]
      exact ih hx p
  | nullable _ ih =>
    rw [checkWithin_eq, Validator.checkWith]
    split
    · exact accepting_pure
    · rw [← checkWithin_eq]
      exact ih hx p
  | inexact _ ih =>
    have := ih hx p
    rw [checkWithin_eq] at this ⊢
    exact accepting_inexact this
  | @alternatives form vs kept ws hlength _ hsub ih =>
    obtain ⟨v, hm, hv⟩ := exists_passes_of_union hx
    have hkept : List.Forall₂ (fun a b => fs.Passes a x → (fs'.checkWithin n b x p).Accepting)
        vs kept := List.forall₂_iff_zip.2 ⟨hlength, fun hm h => ih _ _ hm h p⟩
    obtain ⟨w, hm', hw⟩ := exists_right_of_forall₂ hkept hm
    have hw := hw hv
    rw [checkWithin_eq] at hw ⊢
    rw [Validator.checkWith, Validator.memberChecks_eq_map]
    exact accepting_anyOf (List.mem_map_of_mem (hsub.subset hm')) hw
  | @conditions form vs kept ws hsub hlength _ ih =>
    have hkept : List.Forall₂ (fun a b => fs.Passes a x → (fs'.checkWithin n b x p).Accepting)
        kept ws := List.forall₂_iff_zip.2 ⟨hlength, fun hm h => ih _ _ hm h p⟩
    rw [checkWithin_eq, Validator.checkWith, Validator.memberChecks_eq_map]
    refine accepting_allOf (List.forall_mem_map.2 fun w hm' => ?_)
    obtain ⟨v, hm, hw⟩ := exists_left_of_forall₂ hkept hm'
    have hw := hw (passes_intersection.1 hx v (hsub.subset hm))
    rwa [checkWithin_eq] at hw

theorem Widens.withParts {l : List Validator} (hv : v.IsLocal)
    (h : List.Forall₂ (fs.Widens fs') v.parts l) : fs.Widens fs' v (v.withParts l) := by
  obtain ⟨hlength, hparts⟩ := List.forall₂_iff_zip.1 h
  exact .parts hv hlength fun a b => hparts

theorem widens_refl (hv : v.Throughout Validator.IsLocal) : fs.Widens fs' v v := by
  induction hv with
  | @mk v hlocal _ ih =>
    have := Widens.withParts hlocal (List.forall₂_same.2 ih)
    rwa [Validator.withParts_parts] at this

/-- A widened validator does not reject what the validator itself lets pass. -/
theorem Widens.tolerates
    (hfs : ∀ f v, fs.target? f = some v → ∃ w, fs'.target? f = some w ∧ fs.Widens fs' v w)
    (h : fs.Widens fs' v w) (hx : fs.Passes v x) : fs'.Tolerates w x := by
  intro n p
  refine h.accepting_of (fun f x hf p => ?_) hx p
  -- Every entry of a definition takes fuel, and what is entered is a widened definition.
  induction n generalizing f x p with
  | zero =>
    obtain ⟨u, hu, -⟩ := passes_forward.1 hf
    obtain ⟨w, hw, -⟩ := hfs f u hu
    intro r s hs
    rw [checkWithin_zero_forward hw] at hs
    cases hs
  | succ n ih =>
    obtain ⟨u, hu, hpass⟩ := passes_forward.1 hf
    obtain ⟨w, hw, hwiden⟩ := hfs f u hu
    rw [checkWithin_forward hw]
    exact hwiden.accepting_of ih hpass p

theorem tolerates_of_passes (hv : fs.Everywhere Validator.IsLocal v) (h : fs.Passes v x) :
    fs.Tolerates v x := by
  intro n p r s hs
  obtain ⟨d, hd, hp⟩ := h
  rw [checkWithin_replays n hv x p r] at hs
  obtain ⟨e, he, rfl⟩ := Option.map_eq_some_iff.1 hs
  cases hd.symm.trans (fs.judgeWithin_approx_judge n v x e he)
  exact hp

end Forwards

/-- A tree that is widened at any of its validators accepts whatever the tree accepts, wherever both
checks return. -/
theorem check_of_widens (fs fs' : Forwards) (v w : Validator)
    (hv : fs.Everywhere Validator.IsLocal v)
    (hfs : ∀ f v, fs.target? f = some v → ∃ w, fs'.target? f = some w ∧ fs.Widens fs' v w)
    (h : fs.Widens fs' v w) {x : Value} {c c₁ c' c₂ : Option Context} {p p' : Path}
    {log log₁ log' log₂ : Log} {b : Bool}
    (hcheck : fs.check v x c p log = some ((true, c₁), log₁))
    (hcheck' : fs'.check w x c' p' log' = some ((b, c₂), log₂)) : b = true := by
  have hx : fs.Passes v x := Forwards.passes_of_check hv hcheck
  rw [Forwards.check, Checking.within, Option.map_eq_some_iff] at hcheck'
  obtain ⟨⟨b', r⟩, hr, hs⟩ := hcheck'
  cases hs
  exact h.tolerates hfs hx _ p' _ _ hr

def line : Forwards where
  cells := [some (.object .list [
    ("name", .intersection .list [.leaf .string, .leaf .numericString]),
    ("next", .optional (.forward ⟨0⟩)), ("open", .union .list [.leaf .boolean])] true)]

/-- Stations with any name, and with notes about them. -/
def wideLine : Forwards where
  cells := [some (.object .list [
    ("name", .intersection .list [.leaf .string]),
    ("next", .optional (.nullable (.forward ⟨0⟩))),
    ("open", .union .list [.leaf .number, .leaf .any])] false)]

def twoStations : Value :=
  .object ⟨[("name", .string "7"), ("open", .boolean true),
    ("next", .object ⟨[("open", .boolean false), ("name", .string "8")], []⟩)], []⟩

theorem line_widens (f : Forward) (v : Validator) (hf : line.target? f = some v) :
    ∃ w, wideLine.target? f = some w ∧ line.Widens wideLine v w := by
  obtain ⟨_ | n⟩ := f
  · cases hf
    refine ⟨_, rfl, .inexact (.withParts (l := [_, _, _]) trivial ?_)⟩
    refine .cons ?_ (.cons ?_ (.cons ?_ .nil))
    · refine .conditions (List.sublist_append_left [_] [_]) rfl fun a b hm => ?_
      obtain ⟨rfl, rfl⟩ : a = .leaf .string ∧ b = .leaf .string := by simpa using hm
      exact Forwards.widens_refl (.mk trivial (by simp [Validator.parts]))
    · have hnext : line.Widens wideLine (.forward ⟨0⟩) (.forward ⟨0⟩) :=
        Forwards.widens_refl (.mk trivial (by simp [Validator.parts]))
      exact .withParts (l := [_]) trivial (.cons (.nullable hnext) .nil)
    · have hany : line.Widens wideLine (.leaf .boolean) (.leaf .any) := by
        refine .replaced fun x _ => Forwards.tolerates_of_passes ?_ (Forwards.passes_leaf.2 rfl)
        apply Forwards.everywhere_of_throughout <;>
          simp [wideLine, Validator.throughout_iff, Validator.parts, Validator.IsLocal]
      have hkept : [Validator.leaf .any].Sublist [.leaf .number, .leaf .any] := .cons _ (.refl _)
      refine .alternatives ?_ (fun a b hm => ?_) hkept
      · rfl
      obtain ⟨rfl, rfl⟩ : a = .leaf .boolean ∧ b = .leaf .any := by simpa using hm
      exact hany
  · cases hf

theorem check_twoStations :
    (line.Everywhere Validator.IsLocal (.forward ⟨0⟩) ∧
      (∀ f v, line.target? f = some v →
        ∃ w, wideLine.target? f = some w ∧ line.Widens wideLine v w) ∧
      line.Widens wideLine (.forward ⟨0⟩) (.forward ⟨0⟩) ∧
      line.check (.forward ⟨0⟩) twoStations none .root [] = some ((true, none), [])) ∧
      ∀ c p log, ∃ c' log',
        wideLine.check (.forward ⟨0⟩) twoStations c p log = some ((true, c'), log') := by
  have hv : line.Everywhere Validator.IsLocal (.forward ⟨0⟩) := by
    apply Forwards.everywhere_of_throughout <;>
      simp [line, Validator.throughout_iff, Validator.parts, Validator.IsLocal]
  have hw : line.Widens wideLine (.forward ⟨0⟩) (.forward ⟨0⟩) :=
    Forwards.widens_refl (.mk trivial (by simp [Validator.parts]))
  have hcheck : line.check (.forward ⟨0⟩) twoStations none .root [] = some ((true, none), []) := rfl
  have hg : wideLine.Guarded (.forward ⟨0⟩) := by
    refine Forwards.guarded_of_cells (fun w u hw hs => ?_) _
    simp only [wideLine, List.mem_singleton, Option.some.injEq] at hw
    subst hw
    cases hs
  refine ⟨⟨hv, line_widens, hw, hcheck⟩, fun c p log => ?_⟩
  obtain ⟨⟨⟨b, c'⟩, log'⟩, hcheck'⟩ :=
    Option.isSome_iff_exists.1 (hg.check_isSome twoStations c p log)
  obtain rfl := check_of_widens line wideLine _ _ hv line_widens hw hcheck hcheck'
  exact ⟨c', log', hcheck'⟩

end Conform
