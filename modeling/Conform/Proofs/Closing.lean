import Conform.Proofs.Acceptance
import Conform.Proofs.Navigation

namespace Conform

/-- The validators without parts that accept neither arrays nor objects. -/
def Leaf.IsScalar : Leaf → Prop
  | .any => False
  | .custom _ => False
  | _ => True

/-- Accepts no array and no object without a validator for each of its parts. -/
def Validator.IsClosed : Validator → Prop
  | .leaf l => l.IsScalar
  | .extension _ => False
  | .record _ _ => False
  | .object _ _ exact => exact = true
  | .intersection _ members => members ≠ []
  | _ => True

theorem Validator.IsClosed.isBuiltin {v : Validator} (h : v.IsClosed) : v.IsBuiltin := by
  cases v with
  | extension => exact h
  | _ => trivial

theorem Leaf.IsScalar.depth_eq_zero {l : Leaf} (hl : l.IsScalar) {x : Value}
    (h : l.accepts x = true) : x.depth = 0 := by
  cases x with
  | array | object =>
    cases l with
    | any | custom => exact hl.elim
    | const c => cases c <;> cases h
    | _ => cases h
  | _ => rfl

namespace Value

variable {items : List Value} {o : Object} {s : Segment} {y : Value}

theorem exists_index_of_part? (h : (Value.array items).part? s = some y) :
    ∃ i : Nat, items[i]? = some y := by
  cases s with
  | key name =>
    obtain ⟨i, -, hi⟩ := Option.bind_eq_some_iff.1 h
    exact ⟨i, hi⟩
  | index i => exact ⟨i, h⟩
  | symbol => cases h

theorem exists_key_of_part? (hs : ¬s.IsSymbol) (h : (Value.object o).part? s = some y) :
    ∃ key, o.get? key = some y := by
  cases s with
  | key name => exact ⟨name, h⟩
  | index i => exact ⟨toString i, h⟩
  | symbol => exact absurd trivial hs

theorem mem_keys_of_get? {key : String} (h : o.get? key = some y) : key ∈ o.keys :=
  List.mem_map_of_mem (f := Prod.fst) (mem_properties_of_get? h)

end Value

namespace Forwards

variable {fs : Forwards} {v : Validator} {x y : Value}

/-- An accepted array or object is accepted by a validator that goes into its parts. -/
theorem Accepts.exists_structural (hx : fs.Accepts v x) (hv : fs.Everywhere Validator.IsClosed v)
    (hd : 0 < x.depth) : ∃ w, fs.Reaches v w ∧ w.IsStructural ∧ fs.Accepts w x := by
  induction hx with
  | leaf h =>
    have hscalar : Leaf.IsScalar _ := hv.here
    exact absurd (hscalar.depth_eq_zero h) (Nat.ne_of_gt hd)
  | undefined | absent | null => exact absurd hd (Nat.lt_irrefl 0)
  | optional _ ih | nullable _ ih | erased _ ih | wrapped _ ih =>
    obtain ⟨w, hw, h⟩ := ih (hv.part (by simp [Validator.parts])) hd
    exact ⟨w, .head (.part (by simp [Validator.parts])) hw, h⟩
  | array h => exact ⟨_, .refl, trivial, .array h⟩
  | tuple hl h => exact ⟨_, .refl, trivial, .tuple hl h⟩
  | record => exact hv.here.elim
  | object h hkeys => exact ⟨_, .refl, trivial, .object h hkeys⟩
  | union hm _ ih =>
    obtain ⟨w, hw, h⟩ := ih (hv.part hm) hd
    exact ⟨w, .head (.part hm) hw, h⟩
  | intersection _ ih =>
    obtain ⟨u, hm⟩ := List.exists_mem_of_ne_nil _ hv.here
    obtain ⟨w, hw, h⟩ := ih u hm (hv.part hm) hd
    exact ⟨w, .head (.part hm) hw, h⟩
  | forward ht _ ih =>
    obtain ⟨w, hw, h⟩ := ih (hv.target ht) hd
    exact ⟨w, .head (.target ht) hw, h⟩

/-- Every part of an accepted value is accepted by some validator of the tree. -/
theorem Accepts.exists_part (hx : fs.Accepts v x) (hv : fs.Everywhere Validator.IsClosed v)
    {s : Segment} (hs : ¬s.IsSymbol) (hy : x.part? s = some y) :
    ∃ w, fs.Reaches v w ∧ fs.Accepts w y := by
  obtain ⟨w, hw, hstructural, hx⟩ := hx.exists_structural hv (Value.depth_pos_of_part? hy)
  have hclosed := hv w hw
  cases hx with
  | array h =>
    obtain ⟨i, hi⟩ := Value.exists_index_of_part? hy
    exact ⟨_, hw.tail (.part (by simp [Validator.parts])), h y (List.mem_of_getElem? hi)⟩
  | @tuple _ vs items hl h =>
    obtain ⟨i, hi⟩ := Value.exists_index_of_part? hy
    have hlt : i < vs.length := (List.getElem?_eq_some_iff.1 hi).1.trans_le hl
    have hat := h i hlt
    rw [hi, Option.getD_some] at hat
    exact ⟨vs[i], hw.tail (.part (List.getElem_mem hlt)), hat⟩
  | @object _ fields _ o hfields hkeys =>
    obtain ⟨key, hkey⟩ := Value.exists_key_of_part? hs hy
    obtain ⟨field, hf, hk, rfl⟩ := hkeys hclosed key (Value.mem_keys_of_get? hkey)
    have hat := hfields field hf hk
    rw [hkey, Option.getD_some] at hat
    exact ⟨field.2, hw.tail (.part (List.mem_map_of_mem hf)), hat⟩
  | record => exact hclosed.elim
  | _ => exact hstructural.elim

theorem Accepts.exists_access (hx : fs.Accepts v x) (hv : fs.Everywhere Validator.IsClosed v)
    {q : Path} (hq : ∀ s ∈ q, ¬s.IsSymbol) (hy : x.access q = some y) :
    ∃ w, fs.Reaches v w ∧ fs.Accepts w y := by
  induction q generalizing v x with
  | nil =>
    cases hy
    exact ⟨v, .refl, hx⟩
  | cons s q ih =>
    obtain ⟨hs, hq⟩ := List.forall_mem_cons.1 hq
    obtain ⟨z, hz, hy⟩ := Option.bind_eq_some_iff.1 hy
    obtain ⟨u, hu, hz⟩ := hx.exists_part hv hs hz
    obtain ⟨w, hw, hy⟩ := ih hz (hv.reaches hu) hq hy
    exact ⟨w, hu.trans hw, hy⟩

/-- Some exact object of the tree declares all keys of an accepted object. -/
theorem Accepts.exists_declares {o : Object} (hx : fs.Accepts v (.object o))
    (hv : fs.Everywhere Validator.IsClosed v) : ∃ form fields,
      fs.Reaches v (.object form fields true) ∧ ∀ key ∈ o.keys, declares fields key = true := by
  obtain ⟨w, hw, hstructural, hx⟩ := hx.exists_structural hv (Value.depth_object_pos o)
  have hclosed := hv w hw
  cases hx with
  | @object form fields exact _ hfields hkeys =>
    obtain rfl : exact = true := hclosed
    exact ⟨form, fields, hw, fun key hkey => declares_eq_true_iff.2 (hkeys rfl key hkey)⟩
  | record => exact hclosed.elim
  | _ => exact hstructural.elim

end Forwards

/-- In an input that a closed validator accepts, every key of every object is declared by an exact
object, the reserved key by none. -/
theorem key_declared_of_check (fs : Forwards) (v : Validator)
    (hv : fs.Everywhere Validator.IsClosed v) (x : Value) (c c' : Option Context) (p : Path)
    (log log' : Log) (h : fs.check v x c p log = some ((true, c'), log')) (q : Path)
    (hq : ∀ s ∈ q, ¬s.IsSymbol) (o : Object) (ho : x.access q = some (.object o)) :
    (∀ key ∈ o.keys, ∃ form fields, fs.Reaches v (.object form fields true) ∧
      ∃ field ∈ fields, field.1 ≠ reservedKey ∧ field.1 = key) ∧ reservedKey ∉ o.keys := by
  have hx : fs.Accepts v x :=
    (Forwards.accepts_iff_of_check (fun w hw => (hv w hw).isBuiltin) h).1 rfl
  obtain ⟨w, hw, hx⟩ := hx.exists_access hv hq ho
  obtain ⟨form, fields, hobject, hkeys⟩ := hx.exists_declares (hv.reaches hw)
  have hdeclared : ∀ key ∈ o.keys, ∃ field ∈ fields, field.1 ≠ reservedKey ∧ field.1 = key :=
    fun key hkey => declares_eq_true_iff.1 (hkeys key hkey)
  refine ⟨fun key hkey => ⟨form, fields, hw.trans hobject, hdeclared key hkey⟩, fun hkey => ?_⟩
  obtain ⟨field, -, hne, heq⟩ := hdeclared _ hkey
  exact hne heq

def remarks : Forwards where
  cells := [some (.object .tuple [("text", .leaf .string), ("__proto__", .leaf .null),
    ("answers", .optional (.array (.intersection .tuple [.erased (.forward ⟨0⟩)])))] true)]

def answeredRemark : Value :=
  .object ⟨[("text", .string "a"), ("answers", .array [.object ⟨[("text", .string "b")], []⟩])], []⟩

theorem check_answeredRemark :
    remarks.Everywhere Validator.IsClosed (.forward ⟨0⟩) ∧
      remarks.check (.forward ⟨0⟩) answeredRemark none .root [] = some ((true, none), []) ∧
      answeredRemark.access [.key "answers", .index 0] =
        some (.object ⟨[("text", .string "b")], []⟩) ∧
      ∃ form fields, remarks.Reaches (.forward ⟨0⟩) (.object form fields true) ∧
        ∃ field ∈ fields, field.1 ≠ reservedKey ∧ field.1 = "text" := by
  have hv : remarks.Everywhere Validator.IsClosed (.forward ⟨0⟩) := by
    apply Forwards.everywhere_of_throughout <;>
      simp [remarks, Validator.throughout_iff, Validator.parts, Validator.IsClosed, Leaf.IsScalar]
  have hcheck : remarks.check (.forward ⟨0⟩) answeredRemark none .root [] =
      some ((true, none), []) := rfl
  have haccess : answeredRemark.access [.key "answers", .index 0] =
      some (.object ⟨[("text", .string "b")], []⟩) := rfl
  obtain ⟨hkeys, -⟩ := key_declared_of_check remarks _ hv _ _ _ _ _ _ hcheck _
    (by simp [Segment.IsSymbol]) _ haccess
  exact ⟨hv, hcheck, haccess, hkeys "text" List.mem_cons_self⟩

end Conform
