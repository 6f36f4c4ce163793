import Conform.Proofs.Acceptance
import Conform.Proofs.Client

namespace Conform

namespace Forwards

def ExtendedBy (fs fs' : Forwards) : Prop := ∀ f v, fs.target? f = some v → fs'.target? f = some v

/-- The second definitions contain those that a validator uses of the first ones. -/
def ExtendedFor (fs fs' : Forwards) (v : Validator) : Prop :=
  ∀ f w, fs.Reaches v (.forward f) → fs.target? f = some w → fs'.target? f = some w

variable {fs fs' : Forwards} {v w : Validator} {x : Value}

theorem ExtendedBy.extendedFor (h : fs.ExtendedBy fs') (v : Validator) : fs.ExtendedFor fs' v :=
  fun f w _ hf => h f w hf

theorem ExtendedFor.uses (h : fs.ExtendedFor fs' v) (hw : fs.Uses v w) : fs.ExtendedFor fs' w :=
  fun f u hf => h f u (.head hw hf)

theorem ExtendedFor.part (h : fs.ExtendedFor fs' v) (hw : w ∈ v.parts) : fs.ExtendedFor fs' w :=
  h.uses (.part hw)

/-- No definition replaces another one. -/
theorem extendedBy_of_define {f : Forward} (h : fs.define f v = .ok fs') : fs.ExtendedBy fs' := by
  intro g w hg
  rw [define] at h
  split at h
  · cases h
  · rename_i hf
    cases h
    have hne : f.cell ≠ g.cell := by
      intro hcell
      obtain rfl := Forward.cell_injective hcell
      exact hf (by rw [isDefined, hg, Option.isSome_some])
    rw [target?_set_of_ne v hne]
    exact hg

/-- What a validator means is monotone in the definitions of the references that it uses. -/
theorem Accepts.mono (hx : fs.Accepts v x) (h : fs.ExtendedFor fs' v) : fs'.Accepts v x := by
  induction hx with
  | leaf hx => exact .leaf hx
  | undefined => exact .undefined
  | absent => exact .absent
  | null => exact .null
  | optional _ ih => exact .optional (ih (h.part (by simp [Validator.parts])))
  | nullable _ ih => exact .nullable (ih (h.part (by simp [Validator.parts])))
  | erased _ ih => exact .erased (ih (h.part (by simp [Validator.parts])))
  | wrapped _ ih => exact .wrapped (ih (h.part (by simp [Validator.parts])))
  | array _ ih => exact .array fun y hy => ih y hy (h.part (by simp [Validator.parts]))
  | tuple hl _ ih => exact .tuple hl fun i hi => ih i hi (h.part (List.getElem_mem hi))
  | record _ _ ihk ihv =>
    exact .record (fun e he hk => ihk e he hk (h.part (by simp [Validator.parts])))
      fun e he hk => ihv e he hk (h.part (by simp [Validator.parts]))
  | object _ hkeys ih =>
    exact .object (fun field hf hk => ih field hf hk (h.part (List.mem_map_of_mem hf))) hkeys
  | union hm _ ih => exact .union hm (ih (h.part hm))
  | intersection _ ih => exact .intersection fun w hm => ih w hm (h.part hm)
  | forward ht _ ih => exact .forward (h _ _ .refl ht) (ih (h.uses (.target ht)))

theorem ExtendedBy.uses (h : fs.ExtendedBy fs') (hw : fs.Uses v w) : fs'.Uses v w := by
  cases hw with
  | part hw => exact .part hw
  | target ht => exact .target (h _ _ ht)

theorem ExtendedBy.everywhere {P : Validator → Prop} (h : fs.ExtendedBy fs')
    (hv : fs'.Everywhere P v) : fs.Everywhere P v :=
  fun w hw => hv w (hw.lift id fun _ _ => h.uses)

/-- Wherever a check comes upon an undefined reference, the reference rejects and is noted. -/
theorem checkWithin_of_undefined {f : Forward} (h : fs.target? f = none) (n : Nat) (x : Value)
    (p : Path) (r : Reporter) : fs.checkWithin n (.forward f) x p r =
      some (false, { r with log := r.log ++ [.forwardUndefined p] }) := by
  cases n <;> rw [checkWithin, Validator.checkWith, checkTarget, h] <;> rfl

end Forwards

/-- Definitions that are added reject nothing that was accepted before. An undefined reference
rejects at every point, and to define one adds to the definitions. -/
theorem check_of_extendedBy (fs fs' : Forwards) (hext : fs.ExtendedBy fs') (v : Validator)
    (hv : fs'.Everywhere Validator.IsBuiltin v) (x : Value) :
    (∀ c p log c₁ log₁, fs.check v x c p log = some ((true, c₁), log₁) →
      ∀ c' p' log' b c₂ log₂, fs'.check v x c' p' log' = some ((b, c₂), log₂) → b = true) ∧
    (∀ f, fs.target? f = none → ∀ n y p r, fs.checkWithin n (.forward f) y p r =
      some (false, { r with log := r.log ++ [.forwardUndefined p] })) ∧
    ∀ f w after, fs.define f w = .ok after → fs.ExtendedBy after := by
  refine ⟨?_, fun f hf => Forwards.checkWithin_of_undefined hf,
    fun f w after => Forwards.extendedBy_of_define⟩
  intro c p log c₁ log₁ h c' p' log' b c₂ log₂ h'
  have hbefore : fs.Accepts v x := (Forwards.accepts_iff_of_check (hext.everywhere hv) h).1 rfl
  have hafter : fs'.Accepts v x := hbefore.mono (hext.extendedFor v)
  exact (Forwards.accepts_iff_of_check hv h').2 hafter

/-- Lists of names, and of such lists. What else a name may be is not defined. -/
def nameLists : Forwards where
  cells := [some (.array (.union .list [.forward ⟨1⟩, .leaf .string, .forward ⟨0⟩])), none]

def aliasLists : Forwards where
  cells := [some (.array (.union .list [.forward ⟨1⟩, .leaf .string, .forward ⟨0⟩])),
    some (.object .tuple [("alias", .forward ⟨0⟩)] true)]

theorem check_nameLists :
    let x : Value := .array [.string "a", .array [.string "b"]]
    nameLists.define ⟨1⟩ (.object .tuple [("alias", .forward ⟨0⟩)] true) = .ok aliasLists ∧
      nameLists.ExtendedBy aliasLists ∧
      aliasLists.Everywhere Validator.IsBuiltin (.forward ⟨0⟩) ∧
      nameLists.check (.forward ⟨0⟩) x none .root [] = some ((true, none),
        [.forwardUndefined [.index 0], .forwardUndefined [.index 1],
          .forwardUndefined [.index 1, .index 0]]) ∧
      ∃ b log, aliasLists.check (.forward ⟨0⟩) x none .root [] = some ((b, none), log) ∧
        b = true := by
  intro x
  have hdefine : nameLists.define ⟨1⟩ (.object .tuple [("alias", .forward ⟨0⟩)] true) =
      .ok aliasLists := rfl
  have hext := Forwards.extendedBy_of_define hdefine
  have hv : aliasLists.Everywhere Validator.IsBuiltin (.forward ⟨0⟩) := by
    apply Forwards.everywhere_of_throughout <;>
      simp [aliasLists, Validator.throughout_iff, Validator.parts, Validator.IsBuiltin]
  have hbefore : nameLists.check (.forward ⟨0⟩) x none .root [] = some ((true, none),
      [.forwardUndefined [.index 0], .forwardUndefined [.index 1],
        .forwardUndefined [.index 1, .index 0]]) := rfl
  obtain ⟨hkept, -⟩ := check_of_extendedBy nameLists aliasLists hext _ hv x
  exact ⟨hdefine, hext, hv, hbefore, true, [], rfl, hkept _ _ _ _ _ hbefore none .root [] _ _ _ rfl⟩

end Conform
