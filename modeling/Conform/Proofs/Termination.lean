import Conform.Proofs.Checking
import Conform.Proofs.View
import Conform.Proofs.Guarded
import Mathlib.Data.Finset.Card

namespace Conform

/-- The first check returns, and the second one does the same. -/
def Checking.Settles {α : Type} (c c' : Checking α) : Prop := ∀ r, (c r).isSome ∧ c' r = c r

def Projecting.Settles {α : Type} (c c' : Projecting α) : Prop :=
  ∀ log, (c.run log).isSome ∧ c'.run log = c.run log

theorem Checking.settles_congruence : Congruence fun _ c c' => c.Settles c' where
  pure _ _ := ⟨rfl, rfl⟩
  bind {α β c c' k k'} hc hk r := by
    obtain ⟨hsome, heq⟩ := hc r
    obtain ⟨s, hs⟩ := Option.isSome_iff_exists.1 hsome
    change ((c r).bind _).isSome ∧ (c' r).bind _ = (c r).bind _
    rw [heq, hs]
    exact hk s.1 s.2
  record _ _ := ⟨rfl, rfl⟩
  undefined _ _ := ⟨rfl, rfl⟩
  run _ _ _ _ := ⟨rfl, rfl⟩

theorem Projecting.settles_congruence : Congruence fun _ c c' => c.Settles c' where
  pure _ _ := ⟨rfl, rfl⟩
  failure _ := ⟨rfl, rfl⟩
  bind {α β c c' k k'} hc hk log := by
    obtain ⟨hsome, heq⟩ := hc log
    obtain ⟨⟨o, after⟩, hs⟩ := Option.isSome_iff_exists.1 hsome
    rw [run_bind, run_bind, heq, hs, Option.bind_some, Option.bind_some]
    cases o with
    | none => exact ⟨rfl, rfl⟩
    | some a => exact hk a after

theorem Checking.silently_apply (c : Checking Bool) (log : Log) :
    c.silently log = (c ⟨none, log⟩).map fun r => (r.1, r.2.log) := by
  change (c.within none log).bind _ = _
  rw [within]
  cases c ⟨none, log⟩ <;> rfl

theorem Checking.silently_run (c : Checking Bool) (log : Log) :
    (OptionT.lift c.silently).run log = (c ⟨none, log⟩).map fun r => (some r.1, r.2.log) := by
  change (c.silently log).bind _ = _
  rw [silently_apply]
  cases c ⟨none, log⟩ <;> rfl

theorem Checking.Settles.silently {c c' : Checking Bool} (h : c.Settles c') :
    Projecting.Settles (OptionT.lift c.silently) (OptionT.lift c'.silently) := by
  intro log
  obtain ⟨hsome, heq⟩ := h ⟨none, log⟩
  rw [silently_run, silently_run, heq, Option.isSome_map]
  exact ⟨hsome, rfl⟩

namespace Forwards

variable {fs : Forwards} {v w : Validator} {x y : Value} {f : Forward} {m n : Nat}

open Classical in
/-- The references that a validator meets before it goes into a part of the input. -/
noncomputable def ahead (fs : Forwards) (v : Validator) : Finset Nat :=
  {i ∈ Finset.range fs.cells.length | Relation.ReflTransGen fs.Stays v (.forward ⟨i⟩)}

theorem mem_ahead {i : Nat} : i ∈ fs.ahead v ↔
    i < fs.cells.length ∧ Relation.ReflTransGen fs.Stays v (.forward ⟨i⟩) := by
  classical
  rw [ahead, Finset.mem_filter, Finset.mem_range]

theorem card_ahead_le (fs : Forwards) (v : Validator) : (fs.ahead v).card ≤ fs.cells.length := by
  have hsubset : fs.ahead v ⊆ Finset.range fs.cells.length :=
    fun i hi => Finset.mem_range.2 (mem_ahead.1 hi).1
  exact (Finset.card_le_card hsubset).trans (Finset.card_range _).le

theorem ahead_subset_of_stays (h : fs.Stays v w) : fs.ahead w ⊆ fs.ahead v := by
  intro i hi
  obtain ⟨hlt, hreach⟩ := mem_ahead.1 hi
  exact mem_ahead.2 ⟨hlt, .head h hreach⟩

/-- What a guarded reference is defined as does not meet the reference again. -/
theorem ahead_ssubset_of_target (hg : fs.Guarded (.forward f)) (ht : fs.target? f = some w) :
    fs.ahead w ⊂ fs.ahead (.forward f) := by
  refine (Finset.ssubset_iff_of_subset (ahead_subset_of_stays (.target ht))).2 ⟨f.cell, ?_, ?_⟩
  · exact mem_ahead.2 ⟨cell_lt_of_target? ht, .refl⟩
  · intro hmem
    exact hg f .refl (.head' (.target ht) (mem_ahead.1 hmem).2)

/-- So much fuel is enough for a guarded validator: every level of the input may enter each
definition once, and the input's own level those that are ahead. -/
structure Suffices (fs : Forwards) (n : Nat) (v : Validator) (x : Value) : Prop where
  guarded : fs.Guarded v
  bound : fs.cells.length * x.depth + (fs.ahead v).card ≤ n

theorem suffices_inherited (fs : Forwards) (n : Nat) : Validator.Inherited (fs.Suffices n) where
  inPlace {v w x} h hw := by
    have hs : fs.Stays v w := stays_of_mem_inPlace hw
    have hcard := Finset.card_le_card (ahead_subset_of_stays hs)
    exact ⟨h.guarded.uses hs.uses, (Nat.add_le_add_left hcard _).trans h.bound⟩
  deeper {v w x y} h hw hy := by
    refine ⟨h.guarded.uses (.part hw), ?_⟩
    calc
      _ ≤ fs.cells.length * y.depth + fs.cells.length := Nat.add_le_add_left (fs.card_ahead_le w) _
      _ = fs.cells.length * (y.depth + 1) := (Nat.mul_succ _ _).symm
      _ ≤ fs.cells.length * x.depth := Nat.mul_le_mul_left _ hy
      _ ≤ n := (Nat.le_add_right _ _).trans h.bound

theorem Suffices.target (h : fs.Suffices n (.forward f) x) (ht : fs.target? f = some w) :
    ∃ m, n = m + 1 ∧ fs.Suffices m w x := by
  have hcard := Finset.card_lt_card (ahead_ssubset_of_target h.guarded ht)
  have hbound := h.bound
  refine ⟨n - 1, by omega, h.guarded.uses (.target ht), by omega⟩

theorem suffices_of_guarded (h : fs.Guarded v) (hn : fs.cells.length * (x.depth + 1) ≤ n) :
    fs.Suffices n v x := by
  refine ⟨h, ?_⟩
  calc
    _ ≤ fs.cells.length * x.depth + fs.cells.length := Nat.add_le_add_left (fs.card_ahead_le v) _
    _ = fs.cells.length * (x.depth + 1) := (Nat.mul_succ _ _).symm
    _ ≤ n := hn

def checkDefinition (fs : Forwards) : (fuel : Nat) → Validator → Value → Path → Checking Bool
  | 0 => fun _ _ _ => failure
  | fuel + 1 => fs.checkWithin fuel

theorem checkWithin_eq (fs : Forwards) (n : Nat) (v : Validator) (x : Value) (p : Path) :
    fs.checkWithin n v x p = v.checkWith (fs.checkTarget (fs.checkDefinition n)) x p := by
  cases n <;> rfl

def projectDefinition (fs : Forwards) : (fuel : Nat) → Validator → Value → Projecting Output
  | 0 => fun _ _ => OptionT.lift failure
  | fuel + 1 => fs.projectWithin fuel

theorem projectWithin_eq_projectWith (fs : Forwards) (n : Nat) (v : Validator) (x : Value) :
    fs.projectWithin n v x = v.projectWith (fs.projectTarget (fs.projectDefinition n))
      (fun w y => (fs.checkWithin n w y .root).silently) x := by
  cases n <;> rfl

/-- With enough fuel a check returns, and more fuel changes nothing. -/
theorem checkWithin_settles (h : fs.Suffices m v x) (hn : m ≤ n) (p : Path) :
    (fs.checkWithin m v x p).Settles (fs.checkWithin n v x p) := by
  induction m using Nat.strong_induction_on generalizing v x p n with
  | _ m ih =>
  rw [checkWithin_eq, checkWithin_eq]
  refine Validator.checkWith_related Checking.settles_congruence (fs.suffices_inherited m)
    (fun f x p hf => ?_) v x p h
  refine checkTarget_related Checking.settles_congruence fun w ht => ?_
  obtain ⟨k, rfl, hw⟩ := hf.target ht
  obtain ⟨l, rfl⟩ := Nat.exists_eq_add_of_lt hn
  exact ih k k.lt_succ_self hw (by omega) p

/-- With enough fuel a projection returns, and more fuel changes nothing. Where a union chooses a
member, the fuel is enough for the check of the member too. -/
theorem projectWithin_settles (h : fs.Suffices m v x) (hn : m ≤ n) :
    (fs.projectWithin m v x).Settles (fs.projectWithin n v x) := by
  induction m using Nat.strong_induction_on generalizing v x n with
  | _ m ih =>
  rw [projectWithin_eq_projectWith, projectWithin_eq_projectWith]
  refine Validator.projectWith_related Projecting.settles_congruence (fs.suffices_inherited m)
    (fun f x hf => ?_) (fun w y hw log => ?_) v x h
  · refine projectTarget_related Projecting.settles_congruence fun w ht => ?_
    obtain ⟨k, rfl, hw⟩ := hf.target ht
    obtain ⟨l, rfl⟩ := Nat.exists_eq_add_of_lt hn
    exact ih k k.lt_succ_self hw (by omega)
  · exact (checkWithin_settles hw hn .root).silently log

theorem Guarded.check_isSome (h : fs.Guarded v) (x : Value) (c : Option Context) (p : Path)
    (log : Log) : (fs.check v x c p log).isSome := by
  rw [check, Checking.within, Option.isSome_map]
  exact (checkWithin_settles (suffices_of_guarded h (fs.le_fuelFor x)) le_rfl p ⟨c, log⟩).1

theorem Guarded.project_isSome (h : fs.Guarded v) (x : Value) (log : Log) :
    (fs.project v x log).isSome :=
  (projectWithin_settles (suffices_of_guarded h (fs.le_fuelFor x)) le_rfl log).1

end Forwards

/-- A guarded recursion ends on every input, and any fuel that allows each definition once at each
level gives the same result. -/
theorem check_and_project_return (fs : Forwards) (v : Validator) (hg : fs.Guarded v) (x : Value) :
    (∀ c p log, ∃ b c' log', fs.check v x c p log = some ((b, c'), log') ∧
      ∀ n, fs.cells.length * (x.depth + 1) ≤ n →
        (fs.checkWithin n v x p).within c log = some ((b, c'), log')) ∧
    ∀ log, ∃ o log', fs.project v x log = some (o, log') ∧
      ∀ n, fs.cells.length * (x.depth + 1) ≤ n →
        (fs.projectWithin n v x).run log = some (o, log') := by
  constructor
  · intro c p log
    obtain ⟨r, hr⟩ := Option.isSome_iff_exists.1
      (Forwards.checkWithin_settles (Forwards.suffices_of_guarded hg le_rfl) le_rfl p ⟨c, log⟩).1
    have hwithin : ∀ n, fs.cells.length * (x.depth + 1) ≤ n →
        (fs.checkWithin n v x p).within c log = some ((r.1, r.2.context), r.2.log) := by
      intro n hn
      obtain ⟨-, heq⟩ :=
        Forwards.checkWithin_settles (Forwards.suffices_of_guarded hg le_rfl) hn p ⟨c, log⟩
      rw [Checking.within, heq, hr]
      rfl
    exact ⟨_, _, _, hwithin _ (fs.le_fuelFor x), hwithin⟩
  · intro log
    obtain ⟨r, hr⟩ := Option.isSome_iff_exists.1
      (Forwards.projectWithin_settles (Forwards.suffices_of_guarded hg le_rfl) le_rfl log).1
    have hwithin : ∀ n, fs.cells.length * (x.depth + 1) ≤ n →
        (fs.projectWithin n v x).run log = some (r.1, r.2) := by
      intro n hn
      obtain ⟨-, heq⟩ :=
        Forwards.projectWithin_settles (Forwards.suffices_of_guarded hg le_rfl) hn log
      rw [heq, hr]
    exact ⟨_, _, hwithin _ (fs.le_fuelFor x), hwithin⟩

/-- Lists of entries, which may have a list themselves. What else they may have is not defined. -/
def entryLists : Forwards where
  cells := [some (.array (.union .tuple [.forward ⟨1⟩, .extension (.recorder "seen" true)])),
    some (.object .tuple [("list", .optional (.forward ⟨0⟩)), ("else", .nullable (.forward ⟨2⟩))]
      false), none]

/-- The second entry is of the wrong kind, and something undefined is asked about the third. -/
def threeEntries : Value :=
  .array [.object ⟨[("list", .array []), ("else", .null)], []⟩, .null,
    .object ⟨[("else", .string "x")], []⟩]

theorem check_threeEntries :
    entryLists.Guarded (.forward ⟨0⟩) ∧
      (∀ n, 12 ≤ n →
        (entryLists.checkWithin n (.forward ⟨0⟩) threeEntries .root).within (some .empty) [] =
          some ((true, some ⟨[[.index 1, .key "seen"], [.index 2, .key "else"],
            [.index 2, .key "seen"]]⟩), [.forwardUndefined [.index 2, .key "else"]])) ∧
      ∀ n, 12 ≤ n → ((entryLists.projectWithin n (.forward ⟨0⟩) threeEntries).run []).map Prod.snd =
        some [.forwardUndefined [.key "else"]] := by
  have hg : entryLists.Guarded (.forward ⟨0⟩) := by
    apply Forwards.guarded_of_cells
    intro w u hw hs
    simp only [entryLists, List.mem_cons, Option.some.injEq, reduceCtorEq, List.not_mem_nil,
      or_false] at hw
    rcases hw with rfl | rfl <;> cases hs
  obtain ⟨hcheck, hproject⟩ := check_and_project_return entryLists _ hg threeEntries
  refine ⟨hg, fun n hn => ?_, fun n hn => ?_⟩
  · obtain ⟨b, c', log', hrun, hall⟩ := hcheck (some .empty) .root []
    rw [hall n hn, ← hrun]
    rfl
  · obtain ⟨o, log', hrun, hall⟩ := hproject []
    rw [hall n hn, ← hrun]
    rfl

end Conform
