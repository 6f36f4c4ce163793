import Conform.Proofs.Client

namespace Conform

/-- What the actions of a run say, whatever their answers. A handle and its clones, their clones
included, are a family; families are numbered as they are created. -/
structure History where
  created : Nat := 0
  /-- The family of each handle. -/
  families : List Nat := []
  /-- The validators that were built, with families for the handles they hold. -/
  trees : List Validator := []
  /-- The definitions that were tried, each with its handle and its tree. -/
  attempts : List (Nat × Nat) := []

namespace History

def family? (k : History) (f : Forward) : Option Forward := k.families[f.cell]?.map Forward.mk

def add (k : History) : Action → History
  | .create => { k with created := k.created + 1, families := k.families ++ [k.created] }
  | .clone i => { k with families := k.families ++ k.families[i]?.toList }
  | .build plan => { k with trees := k.trees ++ (plan.resolve k.family?).toList }
  | .define i t => { k with attempts := k.attempts ++ [(i, t)] }
  | .isDefined _ => k
  | .query _ _ => k

def of (actions : List Action) : History := actions.foldl add {}

def definitions (k : History) (family : Nat) : List Nat :=
  (k.attempts.filter fun a => k.families[a.1]? == some family).map Prod.snd

def bound? (k : History) (family : Nat) : Option Validator :=
  (k.definitions family).head?.bind (k.trees[·]?)

/-- Actions that differ in which handle of a family they name, in a plan also, or in which of
equal trees. -/
inductive Alike (k : History) : Action → Action → Prop where
  | clone {i j} : k.families[i]? = k.families[j]? → k.Alike (.clone i) (.clone j)
  | build {plan plan'} : plan.resolve k.family? = plan'.resolve k.family? →
      k.Alike (.build plan) (.build plan')
  | define {i j t s} : k.families[i]? = k.families[j]? → k.trees[t]? = k.trees[s]? →
      k.Alike (.define i t) (.define j s)
  | isDefined {i j} : k.families[i]? = k.families[j]? → k.Alike (.isDefined i) (.isDefined j)
  | query {t s q} : k.trees[t]? = k.trees[s]? → k.Alike (.query t q) (.query s q)

structure Valid (k : History) : Prop where
  family_lt : ∀ o ∈ k.families, o < k.created
  attempt_lt : ∀ a ∈ k.attempts, a.1 < k.families.length ∧ a.2 < k.trees.length

variable {k k' : History} {i t o : Nat}

theorem lt_of_mem_definitions (hk : k.Valid) (h : t ∈ k.definitions o) : t < k.trees.length := by
  obtain ⟨a, ha, rfl⟩ := List.mem_map.1 h
  exact (hk.attempt_lt a (List.mem_of_mem_filter ha)).2

theorem definitions_of_le (hk : k.Valid) (h : k.created ≤ o) : k.definitions o = [] := by
  rw [definitions, List.map_eq_nil_iff, List.filter_eq_nil_iff]
  intro a _ hfamily
  exact absurd (hk.family_lt o (List.mem_of_getElem? (beq_iff_eq.1 hfamily))) (Nat.not_lt.2 h)

theorem bound?_eq_none_iff (hk : k.Valid) : k.bound? o = none ↔ k.definitions o = [] := by
  rw [bound?]
  cases hd : k.definitions o with
  | nil => simp
  | cons t rest =>
    have ht := lt_of_mem_definitions hk (hd ▸ List.mem_cons_self)
    simp [ht]

theorem isSome_bound? (hk : k.Valid) : (k.bound? o).isSome = !(k.definitions o).isEmpty := by
  rw [Bool.eq_iff_iff, Option.isSome_iff_ne_none, ne_eq, bound?_eq_none_iff hk]
  simp

structure Grows (k k' : History) : Prop where
  attempts : k'.attempts = k.attempts
  families : k.families <+: k'.families
  trees : k.trees <+: k'.trees

theorem grows_create (k : History) : k.Grows (k.add .create) :=
  ⟨rfl, List.prefix_append _ _, List.prefix_rfl⟩

theorem grows_clone (k : History) (i : Nat) : k.Grows (k.add (.clone i)) :=
  ⟨rfl, List.prefix_append _ _, List.prefix_rfl⟩

theorem grows_build (k : History) (plan : Validator) : k.Grows (k.add (.build plan)) :=
  ⟨rfl, List.prefix_rfl, List.prefix_append _ _⟩

theorem Grows.attempt_lt (h : k.Grows k') (hk : k.Valid) :
    ∀ a ∈ k'.attempts, a.1 < k'.families.length ∧ a.2 < k'.trees.length := by
  intro a ha
  rw [h.attempts] at ha
  obtain ⟨hi, ht⟩ := hk.attempt_lt a ha
  exact ⟨hi.trans_le h.families.length_le, ht.trans_le h.trees.length_le⟩

theorem Grows.definitions_eq (h : k.Grows k') (hk : k.Valid) (o : Nat) :
    k'.definitions o = k.definitions o := by
  rw [definitions, definitions, h.attempts]
  congr 1
  refine List.filter_congr fun a ha => ?_
  rw [getElem?_of_isPrefix h.families (hk.attempt_lt a ha).1]

theorem Grows.bound?_eq (h : k.Grows k') (hk : k.Valid) : k'.bound? = k.bound? := by
  funext o
  rw [bound?, bound?, h.definitions_eq hk]
  cases hd : k.definitions o with
  | nil => rfl
  | cons t rest =>
    exact getElem?_of_isPrefix h.trees (lt_of_mem_definitions hk (hd ▸ List.mem_cons_self))

theorem definitions_define (k : History) (i t o : Nat) :
    (k.add (.define i t)).definitions o =
      k.definitions o ++ if k.families[i]? = some o then [t] else [] := by
  rw [definitions, definitions, add, List.filter_append, List.map_append]
  congr 1
  by_cases h : k.families[i]? = some o <;> simp [h]

/-- Another attempt only defines a family that no attempt has defined. -/
theorem bound?_define (hk : k.Valid) (i t o : Nat) :
    (k.add (.define i t)).bound? o =
      if k.families[i]? = some o then (k.bound? o).or k.trees[t]? else k.bound? o := by
  rw [bound?, definitions_define, bound?]
  split
  · cases hd : k.definitions o with
    | nil => rfl
    | cons s rest =>
      have hs := lt_of_mem_definitions hk (hd ▸ List.mem_cons_self)
      simp [add, hs]
  · rw [List.append_nil]
    rfl

/-- A client holds what a history says, and its references are defined as the first attempts
say. -/
structure Describes (k : History) (c : Client) : Prop extends k.Valid where
  handles : c.handles = k.families.map Forward.mk
  trees : c.trees = k.trees
  cells : c.session.forwards.cells = (List.range k.created).map k.bound?
  events : c.session.log.count .forwardDefined = c.session.forwards.cells.countP Option.isSome

namespace Describes

variable {c c' : Client}

theorem handle_eq_some (h : k.Describes c) {f : Forward} :
    c.handles[i]? = some f ↔ k.families[i]? = some f.cell := by
  rw [h.handles, List.getElem?_map, Option.map_eq_some_iff]
  constructor
  · rintro ⟨o, ho, rfl⟩
    exact ho
  · exact fun ho => ⟨f.cell, ho, rfl⟩

theorem named?_eq (h : k.Describes c) : c.named? = k.family? := by
  funext f
  rw [Client.named?, family?, h.handles, List.getElem?_map]

theorem target?_eq (h : k.Describes c) (o : Nat) :
    c.session.forwards.target? ⟨o⟩ = k.bound? o := by
  rw [Forwards.target?, h.cells, List.getElem?_map]
  by_cases ho : o < k.created
  · rw [List.getElem?_range ho]
    rfl
  · rw [List.getElem?_eq_none (by simpa using ho)]
    exact ((bound?_eq_none_iff h.toValid).2 (definitions_of_le h.toValid (Nat.not_lt.1 ho))).symm

theorem create (h : k.Describes c) :
    (k.add .create).Describes { c with
      session := c.session.newForward.2, handles := c.handles ++ [c.session.newForward.1] } where
  family_lt o ho := by
    rcases List.mem_append.1 ho with ho | ho
    · exact Nat.lt_succ_of_lt (h.family_lt o ho)
    · rw [List.mem_singleton.1 ho]
      exact Nat.lt_succ_self _
  attempt_lt := k.grows_create.attempt_lt h.toValid
  handles := by
    have hlength : c.session.forwards.cells.length = k.created := by simp [h.cells]
    simp [add, h.handles, Session.newForward, Forwards.add, hlength]
  trees := h.trees
  cells := by
    have hnew := (bound?_eq_none_iff h.toValid).2 (definitions_of_le h.toValid le_rfl)
    rw [k.grows_create.bound?_eq h.toValid]
    simp [add, Session.newForward, Forwards.add, h.cells, List.range_succ, hnew]
  events := by
    simpa [Session.newForward, Forwards.add] using h.events

theorem clone {f : Forward} (h : k.Describes c) (hf : c.handles[i]? = some f) :
    (k.add (.clone i)).Describes { c with handles := c.handles ++ [f] } where
  family_lt o ho := by
    rcases List.mem_append.1 ho with ho | ho
    · exact h.family_lt o ho
    · exact h.family_lt o (List.mem_of_getElem? (Option.mem_toList.1 ho))
  attempt_lt := (k.grows_clone i).attempt_lt h.toValid
  handles := by simp [add, h.handles, h.handle_eq_some.1 hf]
  trees := h.trees
  cells := by
    rw [(k.grows_clone i).bound?_eq h.toValid]
    exact h.cells
  events := h.events

theorem build {plan v : Validator} (h : k.Describes c) (hv : plan.resolve c.named? = some v) :
    (k.add (.build plan)).Describes { c with trees := c.trees ++ [v] } where
  family_lt := h.family_lt
  attempt_lt := (k.grows_build plan).attempt_lt h.toValid
  handles := h.handles
  trees := by
    rw [h.named?_eq] at hv
    simp [add, h.trees, hv]
  cells := by
    rw [(k.grows_build plan).bound?_eq h.toValid]
    exact h.cells
  events := h.events

theorem valid_define {f : Forward} {v : Validator} (h : k.Describes c)
    (hf : c.handles[i]? = some f) (hv : c.trees[t]? = some v) : (k.add (.define i t)).Valid where
  family_lt := h.family_lt
  attempt_lt a ha := by
    rcases List.mem_append.1 ha with ha | ha
    · exact h.attempt_lt a ha
    · rw [h.handle_eq_some] at hf
      rw [h.trees] at hv
      rw [List.mem_singleton.1 ha]
      exact ⟨(List.getElem?_eq_some_iff.1 hf).1, (List.getElem?_eq_some_iff.1 hv).1⟩

theorem bind {f : Forward} {v : Validator} (h : k.Describes c) (hf : c.handles[i]? = some f)
    (hv : c.trees[t]? = some v) (ht : c.session.forwards.target? f = none) :
    (k.add (.define i t)).Describes (c.bind f v) where
  toValid := h.valid_define hf hv
  handles := h.handles
  trees := h.trees
  cells := by
    have hbound : ∀ o, (k.add (.define i t)).bound? o =
        if f.cell = o then some v else k.bound? o := by
      intro o
      rw [bound?_define h.toValid, h.handle_eq_some.1 hf, ← h.trees, hv]
      by_cases ho : f.cell = o
      · rw [if_pos (congrArg some ho), if_pos ho, ← ho, ← h.target?_eq, ht]
        rfl
      · rw [if_neg (mt Option.some.inj ho), if_neg ho]
    change c.session.forwards.cells.set f.cell (some v) = _
    rw [h.cells]
    refine List.ext_getElem (by simp [add]) fun n hn _ => ?_
    simp [List.getElem_set, hbound]
  events := by
    have hlt : f.cell < c.session.forwards.cells.length := by
      have hfamily := List.mem_of_getElem? (h.handle_eq_some.1 hf)
      simpa [h.cells] using h.family_lt _ hfamily
    have hnone : c.session.forwards.cells[f.cell] = none := by
      simpa [Forwards.target?, hlt] using ht
    change List.count _ (c.session.log ++ [.forwardDefined]) =
      List.countP Option.isSome (c.session.forwards.cells.set f.cell (some v))
    rw [List.count_append, h.events, List.countP_set hlt, hnone]
    simp

theorem refuse {f : Forward} {v w : Validator} (h : k.Describes c) (hf : c.handles[i]? = some f)
    (hv : c.trees[t]? = some v) (ht : c.session.forwards.target? f = some w) :
    (k.add (.define i t)).Describes c where
  toValid := h.valid_define hf hv
  handles := h.handles
  trees := h.trees
  cells := by
    have hbound : (k.add (.define i t)).bound? = k.bound? := by
      funext o
      rw [bound?_define h.toValid, h.handle_eq_some.1 hf]
      by_cases ho : f.cell = o
      · rw [if_pos (congrArg some ho), ← ho, ← h.target?_eq, ht]
        rfl
      · rw [if_neg (mt Option.some.inj ho)]
    rw [hbound]
    exact h.cells
  events := h.events

/-- One step keeps to the history. -/
theorem step {a : Action} {answer : Answer} (h : k.Describes c) (hstep : c.Steps a answer c') :
    (k.add a).Describes c' := by
  cases hstep with
  | create => exact h.create
  | clone hf => exact h.clone hf
  | build hv => exact h.build hv
  | bind hf hv ht => exact h.bind hf hv ht
  | refuse hf hv ht => exact h.refuse hf hv ht
  | isDefined => exact h
  | @query t q v _ events hv hq =>
    refine ⟨h.toValid, h.handles, h.trees, h.cells, ?_⟩
    have hnone := List.count_eq_zero.2 ((q.discreet_answer _ v).notMem hq)
    rw [Client.withLog, List.count_append, hnone]
    exact h.events

theorem step_eq_of_alike {a b : Action} (h : k.Describes c) (hab : k.Alike a b) :
    c.step a = c.step b := by
  have hhandle {i j : Nat} (hij : k.families[i]? = k.families[j]?) :
      c.handles[i]? = c.handles[j]? := by
    rw [h.handles, List.getElem?_map, List.getElem?_map, hij]
  cases hab with
  | clone hij => rw [Client.step, Client.step, hhandle hij]
  | build hplan => rw [Client.step, Client.step, h.named?_eq, hplan]
  | define hij hts => rw [Client.step, Client.step, hhandle hij, h.trees, hts]
  | isDefined hij => rw [Client.step, Client.step, hhandle hij]
  | query hts => rw [Client.step, Client.step, h.trees, hts]

theorem exists_define (h : k.Describes c) (hi : i < k.families.length) (ht : t < k.trees.length) :
    ∃ answer b, c.Steps (.define i t) answer b := by
  have hf : c.handles[i]? = some ⟨k.families[i]⟩ :=
    h.handle_eq_some.2 (List.getElem?_eq_getElem hi)
  have hv : c.trees[t]? = some k.trees[t] := by
    rw [h.trees]
    exact List.getElem?_eq_getElem ht
  cases htarget : c.session.forwards.target? ⟨k.families[i]⟩ with
  | none => exact ⟨_, _, .bind hf hv htarget⟩
  | some w => exact ⟨_, _, .refuse hf hv htarget⟩

theorem isSome_run_define (h : k.Describes c) {attempts : List (Nat × Nat)}
    (hattempts : ∀ a ∈ attempts, a.1 < k.families.length ∧ a.2 < k.trees.length) :
    (c.run (attempts.map fun a => .define a.1 a.2)).isSome := by
  induction attempts generalizing k c with
  | nil => rfl
  | cons a rest ih =>
    obtain ⟨⟨hi, ht⟩, hrest⟩ := List.forall_mem_cons.1 hattempts
    obtain ⟨answer, b, hstep⟩ := h.exists_define hi ht
    obtain ⟨⟨answers, c'⟩, hrun⟩ := Option.isSome_iff_exists.1 (ih (h.step hstep) hrest)
    exact Option.isSome_iff_exists.2
      ⟨_, Client.run_cons_eq_some.2 ⟨answer, b, answers, hstep, hrun, rfl⟩⟩

end Describes

theorem describes_of_run {actions : List Action} {answers : List Answer} {c : Client}
    (h : Client.run {} actions = some (answers, c)) : (of actions).Describes c :=
  Client.run_invariant Describes.step ⟨⟨nofun, nofun⟩, rfl, rfl, rfl, rfl⟩ h

structure WriteOnce (k : History) (c : Client) : Prop where
  /-- Handles of one family stand for each other everywhere, inside validators also. -/
  alike {a b : Action} : k.Alike a b → ∀ later, c.run (a :: later) = c.run (b :: later)
  isDefined {i o : Nat} : k.families[i]? = some o →
    c.step (.isDefined i) = some (.defined !(k.definitions o).isEmpty, c)
  /-- The first attempt to define a family succeeds and changes nothing else. -/
  first {i t o : Nat} {v : Validator} : k.families[i]? = some o → k.trees[t]? = some v →
    k.definitions o = [] → c.step (.define i t) = some (.bound, c.bind ⟨o⟩ v)
  /-- Every other attempt fails and changes nothing at all. -/
  again {i t o : Nat} {v : Validator} : k.families[i]? = some o → k.trees[t]? = some v →
    k.definitions o ≠ [] → c.step (.define i t) = some (.refused .alreadyDefined, c)
  /-- Attempts to define return, in whatever order they are made. -/
  returns {attempts : List (Nat × Nat)} :
    (∀ a ∈ attempts, a.1 < k.families.length ∧ a.2 < k.trees.length) →
    (c.run (attempts.map fun a => .define a.1 a.2)).isSome
  target (o : Nat) : c.session.forwards.target? ⟨o⟩ = k.bound? o
  /-- A handle answers what the definition of its family answers. -/
  delegates {t s o : Nat} {v : Validator} : k.trees[t]? = some (.forward ⟨o⟩) →
    k.trees[s]? = some v → k.bound? o = some v →
    c.session.forwards.Everywhere Validator.IsLocal (.forward ⟨o⟩) →
    ∀ q, c.step (.query t q) = c.step (.query s q)
  /-- Only an attempt that succeeds tells the log of a definition, and it does so once. -/
  events {a : Action} {answer : Answer} {c' : Client} : c.step a = some (answer, c') →
    ∃ events, c'.session.log = c.session.log ++ events ∧
      (answer = .bound → events = [.forwardDefined]) ∧
      (answer ≠ .bound → Event.forwardDefined ∉ events)
  count : c.session.log.count .forwardDefined =
    (List.range k.created).countP fun o => !(k.definitions o).isEmpty

theorem Describes.writeOnce {c : Client} (h : k.Describes c) : k.WriteOnce c where
  alike hab later := by rw [Client.run, Client.run, h.step_eq_of_alike hab]
  isDefined {i o} hi := by
    rw [← isSome_bound? h.toValid, ← h.target?_eq]
    exact Client.step_iff.2 (.isDefined (h.handle_eq_some.2 hi))
  first hi ht hd := by
    refine Client.step_iff.2 (.bind (h.handle_eq_some.2 hi) (h.trees ▸ ht) ?_)
    exact (h.target?_eq _).trans ((bound?_eq_none_iff h.toValid).2 hd)
  again {i t o v} hi ht hd := by
    obtain ⟨w, hw⟩ := Option.ne_none_iff_exists'.1 (mt (bound?_eq_none_iff h.toValid).1 hd)
    exact Client.step_iff.2 <|
      .refuse (f := ⟨o⟩) (h.handle_eq_some.2 hi) (h.trees ▸ ht) ((h.target?_eq o).trans hw)
  returns := h.isSome_run_define
  target := h.target?_eq
  delegates {t s o v} ht hs hv hlocal q := by
    have hrun : c.session.run (q.answer · (.forward ⟨o⟩)) = c.session.run (q.answer · v) := by
      rw [Session.run, Session.run, q.answer_forward hlocal ((h.target?_eq o).trans hv)]
    simp only [Client.step, h.trees, ht, hs, Option.bind_eq_bind, Option.bind_some, hrun]
  events hstep := by
    obtain ⟨events, hlogs⟩ := (Client.step_iff.1 hstep).logs
    exact ⟨events, hlogs.log, hlogs.bound, hlogs.other⟩
  count := by
    rw [h.events, h.cells, List.countP_map]
    refine List.countP_congr fun o _ => ?_
    rw [Function.comp_apply, isSome_bound? h.toValid]

/-- The other run does the same, but definitions of different families may have changed places,
with each other and with what is done between them. -/
structure Reordered (actions actions' : List Action) : Prop where
  others : actions'.filter (!·.isDefine) = actions.filter (!·.isDefine)
  definitions (o : Nat) : (of actions').definitions o = (of actions).definitions o

def undefined (k : History) : History := { k with attempts := [] }

theorem undefined_add (k : History) (a : Action) :
    (k.add a).undefined = if a.isDefine then k.undefined else k.undefined.add a := by
  cases a <;> rfl

theorem undefined_foldl (k : History) (actions : List Action) :
    (actions.foldl add k).undefined =
      (actions.filter (!·.isDefine)).foldl add k.undefined := by
  induction actions generalizing k with
  | nil => rfl
  | cons a rest ih =>
    rw [List.foldl_cons, ih, undefined_add]
    cases ha : a.isDefine <;> simp [ha]

namespace Reordered

variable {actions actions' : List Action}

theorem names_eq (h : Reordered actions actions') :
    (of actions').created = (of actions).created ∧ (of actions').families = (of actions).families ∧
      (of actions').trees = (of actions).trees := by
  have hundefined : (of actions').undefined = (of actions).undefined := by
    rw [of, of, undefined_foldl, undefined_foldl, h.others]
  simpa [undefined] using hundefined

theorem bound?_eq (h : Reordered actions actions') :
    (of actions').bound? = (of actions).bound? := by
  obtain ⟨-, -, htrees⟩ := h.names_eq
  funext o
  rw [bound?, bound?, h.definitions, htrees]

/-- Clients whose runs differ in the order of definitions differ in their logs only. -/
theorem eq_withLog (h : Reordered actions actions') {c c' : Client}
    (hc : (of actions).Describes c) (hc' : (of actions').Describes c') :
    c' = c.withLog c'.session.log := by
  obtain ⟨hcreated, hfamilies, htrees⟩ := h.names_eq
  have hcells : c'.session.forwards.cells = c.session.forwards.cells := by
    rw [hc'.cells, hc.cells, hcreated, h.bound?_eq]
  have hforwards : c'.session.forwards = c.session.forwards := congrArg Forwards.mk hcells
  have hhandles : c'.handles = c.handles := by rw [hc'.handles, hc.handles, hfamilies]
  have htrees : c'.trees = c.trees := by rw [hc'.trees, hc.trees, htrees]
  rw [Client.withLog, ← hforwards, ← hhandles, ← htrees]

end Reordered

end History

open History

/-- Answers depend on the families of the handles alone, a family keeps its first definition, and
the order among families changes no later answer. -/
theorem Client.run_writeOnce {actions : List Action} {answers : List Answer} {c : Client}
    (h : Client.run {} actions = some (answers, c)) :
    (History.of actions).WriteOnce c ∧
    (∀ later answers' c', c.run later = some (answers', c') →
      ∀ o v, (History.of actions).bound? o = some v → c'.session.forwards.target? ⟨o⟩ = some v) ∧
    ∀ actions', Reordered actions actions' →
      ∀ answers' c', Client.run {} actions' = some (answers', c') →
        c' = c.withLog c'.session.log ∧
        ∀ later, (c'.run later).map Prod.fst = (c.run later).map Prod.fst := by
  have hc := describes_of_run h
  refine ⟨hc.writeOnce, fun later answers' c' hrun o v hv => ?_,
    fun actions' hreordered answers' c' hrun => ?_⟩
  · exact (extends_of_run hrun).target ((hc.target?_eq o).trans hv)
  · have heq := hreordered.eq_withLog hc (describes_of_run hrun)
    refine ⟨heq, fun later => ?_⟩
    rw [heq]
    exact answers_withLog c _ later

/-- An array of a family whose definition, made with a clone, refers to a family that is defined
later. -/
def twoFamilies : List Action :=
  [.create, .build (.array (.forward ⟨0⟩)), .clone 0, .create, .build (.nullable (.forward ⟨2⟩)),
    .build (.leaf .string), .define 1 1, .query 0 (.check (.array [.null, .string "a"]) none .root),
    .define 2 2, .define 0 2]

def twoFamiliesExchanged : List Action :=
  [.create, .build (.array (.forward ⟨0⟩)), .clone 0, .create, .build (.nullable (.forward ⟨2⟩)),
    .build (.leaf .string), .define 2 2, .query 0 (.check (.array [.null, .string "a"]) none .root),
    .define 1 1, .define 0 2]

theorem reordered_twoFamilies : Reordered twoFamilies twoFamiliesExchanged where
  others := rfl
  definitions
    | 0 => rfl
    | 1 => rfl
    | _ + 2 => rfl

theorem Client.run_twoFamilies :
    ∃ c, Client.run {} twoFamilies = some ([.done, .done, .done, .done, .done, .done, .bound,
        .checked false none, .bound, .refused .alreadyDefined], c) ∧
      (∀ later, c.run (.isDefined 1 :: later) = c.run (.isDefined 0 :: later)) ∧
      c.step (.define 1 0) = some (.refused .alreadyDefined, c) ∧
      c.session.log.count .forwardDefined = 2 ∧
      ∃ answers c', Client.run {} twoFamiliesExchanged = some (answers, c') ∧
        ∀ later, (c'.run later).map Prod.fst = (c.run later).map Prod.fst := by
  obtain ⟨hw, -, hreordered⟩ := Client.run_writeOnce (rfl : Client.run {} twoFamilies = some (_, _))
  refine ⟨_, rfl, hw.alike (.isDefined rfl), hw.again (o := 0) rfl rfl (by decide), hw.count, ?_⟩
  obtain ⟨-, hlater⟩ := hreordered _ reordered_twoFamilies _ _ rfl
  exact ⟨_, _, rfl, hlater⟩

end Conform
