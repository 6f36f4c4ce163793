import Conform.Proofs.Logging

namespace Conform

namespace Validator

mutual

/-- The validator with other references in place of its own, if there is one for each of them. -/
def resolve (g : Forward → Option Forward) : Validator → Option Validator
  | .leaf l => some (.leaf l)
  | .extension e => some (.extension e)
  | .optional inner => (resolve g inner).map .optional
  | .nullable inner => (resolve g inner).map .nullable
  | .erased inner => (resolve g inner).map .erased
  | .wrapped inner => (resolve g inner).map .wrapped
  | .array item => (resolve g item).map .array
  | .tuple form elements => (resolveAll g elements).map (.tuple form)
  | .record key value => do return .record (← resolve g key) (← resolve g value)
  | .object form fields exact => (resolveFields g fields).map (.object form · exact)
  | .union form members => (resolveAll g members).map (.union form)
  | .intersection form members => (resolveAll g members).map (.intersection form)
  | .forward f => (g f).map .forward

def resolveAll (g : Forward → Option Forward) : List Validator → Option (List Validator)
  | [] => some []
  | v :: rest => do return (← resolve g v) :: (← resolveAll g rest)

def resolveFields (g : Forward → Option Forward) :
    List (String × Validator) → Option (List (String × Validator))
  | [] => some []
  | (name, v) :: rest => do return (name, ← resolve g v) :: (← resolveFields g rest)

end

end Validator

inductive Query where
  | check (x : Value) (context : Option Context) (p : Path)
  | project (x : Value)
  | parse (x : Value)

/-- What a client does. Handles and validators go by the number of their creation, and a plan is a
validator whose references name handles. -/
inductive Action where
  | create
  | clone (handle : Nat)
  | build (plan : Validator)
  | define (handle tree : Nat)
  | isDefined (handle : Nat)
  | query (tree : Nat) (q : Query)

inductive Answer where
  | done
  | bound
  | refused (e : ForwardError)
  | defined (b : Bool)
  | checked (passed : Bool) (context : Option Context)
  | projected (o : Option Output)
  | parsed (r : Except ParseError Output)

def Query.answer (fs : Forwards) (v : Validator) : Query → Logged Answer
  | .check x context p => (fun r => .checked r.1 r.2) <$> fs.check v x context p
  | .project x => .projected <$> fs.project v x
  | .parse x => .parsed <$> fs.parse v x

def Action.isDefine : Action → Bool
  | .define _ _ => true
  | _ => false

theorem Query.discreet_answer (fs : Forwards) (v : Validator) (q : Query) :
    (q.answer fs v).Discreet := by
  cases q with
  | check x context p => exact (fs.discreet_check v x context p).map _
  | project x => exact (fs.discreet_project v x).map _
  | parse x => exact (fs.discreet_parse v x).map _

/-- A defined reference answers what its definition answers. -/
theorem Query.answer_forward {fs : Forwards} {f : Forward} {v : Validator}
    (hf : fs.Everywhere Validator.IsLocal (.forward f)) (ht : fs.target? f = some v) (q : Query) :
    q.answer fs (.forward f) = q.answer fs v := by
  have hcheck : ∀ x context p, fs.check (.forward f) x context p = fs.check v x context p := by
    intro x context p
    funext log
    rw [Forwards.check_eq hf, Forwards.check_eq (hf.target ht),
      Forwards.judge_forward_of_defined x ht]
  have hproject : ∀ x, fs.project (.forward f) x = fs.project v x := by
    intro x
    rw [Forwards.project_eq hf, Forwards.project_eq (hf.target ht), Forwards.view_eq]
    exact congrArg OptionT.run (Forwards.projectTarget_of_defined fs.view x ht)
  cases q with
  | check x context p => rw [answer, answer, hcheck]
  | project x => rw [answer, answer, hproject]
  | parse x => simp only [answer, Forwards.parse, Forwards.validate, hcheck, hproject]

theorem Query.answer_ne_bound {fs : Forwards} {v : Validator} {q : Query} {answer : Answer}
    {log after : Log} (h : q.answer fs v log = some (answer, after)) : answer ≠ .bound := by
  rintro rfl
  cases q <;> obtain ⟨_, _, h⟩ := Option.bind_eq_some_iff.1 h <;> cases h

namespace Session

variable {s : Session} {f : Forward}

theorem define_of_undefined (v : Validator) (h : s.forwards.target? f = none) :
    s.define f v = .ok {
      forwards := { cells := s.forwards.cells.set f.cell (some v) }
      log := s.log ++ [.forwardDefined] } := by
  rw [define, Forwards.define, Forwards.isDefined, h]
  rfl

theorem define_of_defined {w : Validator} (v : Validator) (h : s.forwards.target? f = some w) :
    s.define f v = .error .alreadyDefined := by
  rw [define, Forwards.define, Forwards.isDefined, h]
  rfl

end Session

namespace Forwards

variable {fs : Forwards} {f g : Forward}

theorem target?_add (fs : Forwards) (f : Forward) : fs.add.2.target? f = fs.target? f := by
  change (fs.cells ++ [none])[f.cell]?.join = _
  by_cases h : f.cell < fs.cells.length
  · rw [List.getElem?_append_left h, target?]
  · -- The new cell and all behind it are empty alike.
    rw [List.getElem?_append_right (Nat.not_lt.1 h), target?,
      List.getElem?_eq_none (Nat.not_lt.1 h)]
    cases f.cell - fs.cells.length <;> rfl

theorem target?_set_of_ne (v : Validator) (h : f.cell ≠ g.cell) :
    Forwards.target? { cells := fs.cells.set f.cell (some v) } g = fs.target? g := by
  rw [target?, target?, List.getElem?_set_ne h]

end Forwards

/-- A session, with the handles and the validators that its user holds. -/
structure Client where
  session : Session := {}
  handles : List Forward := []
  trees : List Validator := []

namespace Client

def named? (c : Client) (f : Forward) : Option Forward := c.handles[f.cell]?

/-- One action: nothing when it names what the client does not hold, or does not return. -/
def step (c : Client) : Action → Option (Answer × Client)
  | .create =>
    let (f, session) := c.session.newForward
    some (.done, { c with session := session, handles := c.handles ++ [f] })
  | .clone i => do
    let f ← c.handles[i]?
    return (.done, { c with handles := c.handles ++ [f] })
  | .build plan => do
    let v ← plan.resolve c.named?
    return (.done, { c with trees := c.trees ++ [v] })
  | .define i t => do
    let f ← c.handles[i]?
    let v ← c.trees[t]?
    match c.session.define f v with
    | .ok session => return (.bound, { c with session := session })
    | .error e => return (.refused e, c)
  | .isDefined i => do
    let f ← c.handles[i]?
    return (.defined (c.session.forwards.isDefined f), c)
  | .query t q => do
    let v ← c.trees[t]?
    let (answer, session) ← c.session.run (q.answer · v)
    return (answer, { c with session := session })

def run (c : Client) : List Action → Option (List Answer × Client)
  | [] => some ([], c)
  | a :: rest => do
    let (answer, c) ← c.step a
    let (answers, c) ← c.run rest
    return (answer :: answers, c)

def withLog (c : Client) (log : Log) : Client :=
  { c with session := { forwards := c.session.forwards, log := log } }

def bind (c : Client) (f : Forward) (v : Validator) : Client :=
  { c with session := {
      forwards := { cells := c.session.forwards.cells.set f.cell (some v) }
      log := c.session.log ++ [.forwardDefined] } }

/-- The ways in which an action returns. -/
inductive Steps (c : Client) : Action → Answer → Client → Prop where
  | create : c.Steps .create .done { c with
      session := c.session.newForward.2, handles := c.handles ++ [c.session.newForward.1] }
  | clone {i f} : c.handles[i]? = some f →
      c.Steps (.clone i) .done { c with handles := c.handles ++ [f] }
  | build {plan v} : plan.resolve c.named? = some v →
      c.Steps (.build plan) .done { c with trees := c.trees ++ [v] }
  | bind {i t f v} : c.handles[i]? = some f → c.trees[t]? = some v →
      c.session.forwards.target? f = none → c.Steps (.define i t) .bound (c.bind f v)
  | refuse {i t f v w} : c.handles[i]? = some f → c.trees[t]? = some v →
      c.session.forwards.target? f = some w →
      c.Steps (.define i t) (.refused .alreadyDefined) c
  | isDefined {i f} : c.handles[i]? = some f →
      c.Steps (.isDefined i) (.defined (c.session.forwards.isDefined f)) c
  | query {t q v answer events} : c.trees[t]? = some v →
      q.answer c.session.forwards v [] = some (answer, events) →
      c.Steps (.query t q) answer (c.withLog (c.session.log ++ events))

variable {c c' : Client} {a : Action} {answer : Answer} {answers : List Answer}

theorem steps_of_step (h : c.step a = some (answer, c')) : c.Steps a answer c' := by
  cases a with
  | create =>
    cases h
    exact .create
  | clone i =>
    obtain ⟨f, hf, h⟩ := Option.bind_eq_some_iff.1 h
    cases h
    exact .clone hf
  | build plan =>
    obtain ⟨v, hv, h⟩ := Option.bind_eq_some_iff.1 h
    cases h
    exact .build hv
  | define i t =>
    obtain ⟨f, hf, h⟩ := Option.bind_eq_some_iff.1 h
    obtain ⟨v, hv, h⟩ := Option.bind_eq_some_iff.1 h
    cases ht : c.session.forwards.target? f with
    | none =>
      rw [Session.define_of_undefined v ht] at h
      cases h
      exact .bind hf hv ht
    | some w =>
      rw [Session.define_of_defined v ht] at h
      cases h
      exact .refuse hf hv ht
  | isDefined i =>
    obtain ⟨f, hf, h⟩ := Option.bind_eq_some_iff.1 h
    cases h
    exact .isDefined hf
  | query t q =>
    obtain ⟨v, hv, h⟩ := Option.bind_eq_some_iff.1 h
    obtain ⟨r, hr, h⟩ := Option.bind_eq_some_iff.1 h
    cases h
    rw [Session.run, (q.discreet_answer c.session.forwards v).appends, Option.map_map] at hr
    obtain ⟨s, hs, rfl⟩ := Option.map_eq_some_iff.1 hr
    exact .query hv hs

theorem Steps.step (h : c.Steps a answer c') : c.step a = some (answer, c') := by
  cases h with
  | create => rfl
  | clone hf => rw [Client.step, hf]; rfl
  | build hv => rw [Client.step, hv]; rfl
  | bind hf hv ht => simp [Client.step, hf, hv, Session.define_of_undefined _ ht, Client.bind]
  | refuse hf hv ht => simp [Client.step, hf, hv, Session.define_of_defined _ ht]
  | isDefined hf => rw [Client.step, hf]; rfl
  | @query t q v _ events hv hq =>
    have hrun := (q.discreet_answer c.session.forwards v).appends c.session.log
    simp [Client.step, hv, Session.run, hrun, hq, withLog]

theorem step_iff : c.step a = some (answer, c') ↔ c.Steps a answer c' := ⟨steps_of_step, Steps.step⟩

theorem run_cons_eq_some {rest : List Action} :
    c.run (a :: rest) = some (answers, c') ↔
      ∃ answer b answers', c.Steps a answer b ∧ b.run rest = some (answers', c') ∧
        answer :: answers' = answers := by
  constructor
  · intro h
    obtain ⟨⟨answer, b⟩, hstep, h⟩ := Option.bind_eq_some_iff.1 h
    obtain ⟨⟨answers', c''⟩, hrun, h⟩ := Option.bind_eq_some_iff.1 h
    cases h
    exact ⟨answer, b, answers', step_iff.1 hstep, hrun, rfl⟩
  · rintro ⟨answer, b, answers', hstep, hrun, rfl⟩
    rw [run, step_iff.2 hstep]
    exact Option.bind_eq_some_iff.2 ⟨(answer, b), rfl, Option.bind_eq_some_iff.2 ⟨_, hrun, rfl⟩⟩

/-- What every step keeps, a run keeps; `k` follows the actions. -/
theorem run_invariant {K : Type} {I : K → Client → Prop} {next : K → Action → K}
    (hstep : ∀ {k c a answer c'}, I k c → c.Steps a answer c' → I (next k a) c')
    {k : K} {actions : List Action} (hc : I k c) (h : c.run actions = some (answers, c')) :
    I (actions.foldl next k) c' := by
  induction actions generalizing k c answers with
  | nil =>
    cases h
    exact hc
  | cons a rest ih =>
    obtain ⟨_, b, _, hb, hrest, -⟩ := run_cons_eq_some.1 h
    exact ih (hstep hc hb) hrest

/-- The second client holds all that the first one does, under the same numbers, and no reference
has lost its definition or got another. -/
structure Extends (c c' : Client) : Prop where
  handles : c.handles <+: c'.handles
  trees : c.trees <+: c'.trees
  target {f : Forward} {v : Validator} :
    c.session.forwards.target? f = some v → c'.session.forwards.target? f = some v

theorem extends_refl (c : Client) : c.Extends c :=
  ⟨List.prefix_rfl, List.prefix_rfl, id⟩

theorem Extends.trans {b : Client} (h : c.Extends b) (k : b.Extends c') : c.Extends c' :=
  ⟨h.handles.trans k.handles, h.trees.trans k.trees, fun ht => k.target (h.target ht)⟩

theorem Steps.extends (h : c.Steps a answer c') : c.Extends c' := by
  cases h with
  | create =>
    exact ⟨List.prefix_append _ _, List.prefix_rfl, fun ht => (Forwards.target?_add _ _).trans ht⟩
  | clone hf => exact ⟨List.prefix_append _ _, List.prefix_rfl, id⟩
  | build hv => exact ⟨List.prefix_rfl, List.prefix_append _ _, id⟩
  | @bind i t f v hf hv hu =>
    refine ⟨List.prefix_rfl, List.prefix_rfl, fun {g w} ht => ?_⟩
    have hne : f.cell ≠ g.cell := by
      intro h
      rw [Forward.cell_injective h, ht] at hu
      cases hu
    exact (Forwards.target?_set_of_ne v hne).trans ht
  | refuse | isDefined | query => exact ⟨List.prefix_rfl, List.prefix_rfl, id⟩

theorem extends_of_run {actions : List Action} (h : c.run actions = some (answers, c')) :
    c.Extends c' :=
  @run_invariant c c' answers Unit (fun _ => c.Extends) (fun u _ => u)
    (fun hb hstep => hb.trans hstep.extends) () actions c.extends_refl h

/-- A step adds events to the log that do not depend on what the log holds. -/
structure Logs (c : Client) (a : Action) (answer : Answer) (c' : Client) (events : Log) : Prop where
  log : c'.session.log = c.session.log ++ events
  withLog (log : Log) : (c.withLog log).Steps a answer (c'.withLog (log ++ events))
  bound : answer = .bound → events = [.forwardDefined]
  other : answer ≠ .bound → Event.forwardDefined ∉ events

theorem logs_nil (ha : answer ≠ .bound) (hlog : c'.session.log = c.session.log)
    (h : ∀ log, (c.withLog log).Steps a answer (c'.withLog log)) : Logs c a answer c' [] where
  log := by rw [hlog, List.append_nil]
  withLog log := by
    rw [List.append_nil]
    exact h log
  bound hb := absurd hb ha
  other _ := List.not_mem_nil

theorem Steps.logs (h : c.Steps a answer c') : ∃ events, Logs c a answer c' events := by
  cases h with
  | create => exact ⟨[], logs_nil nofun rfl fun _ => .create⟩
  | clone hf => exact ⟨[], logs_nil nofun rfl fun _ => .clone hf⟩
  | build hv => exact ⟨[], logs_nil nofun rfl fun _ => .build hv⟩
  | bind hf hv ht =>
    exact ⟨[.forwardDefined], rfl, fun _ => .bind hf hv ht, fun _ => rfl, fun h => (h rfl).elim⟩
  | refuse hf hv ht => exact ⟨[], logs_nil nofun rfl fun _ => .refuse hf hv ht⟩
  | isDefined hf => exact ⟨[], logs_nil nofun rfl fun _ => .isDefined hf⟩
  | @query t q v _ events hv hq =>
    have hne := q.answer_ne_bound hq
    exact ⟨events, rfl, fun _ => .query hv hq, fun h => absurd h hne,
      fun _ => (q.discreet_answer _ v).notMem hq⟩

/-- Clients that differ in what they have logged get the same answers. -/
theorem run_withLog {actions : List Action} (h : c.run actions = some (answers, c')) (log : Log) :
    ∃ events, c'.session.log = c.session.log ++ events ∧
      (c.withLog log).run actions = some (answers, c'.withLog (log ++ events)) := by
  induction actions generalizing c log answers with
  | nil =>
    cases h
    exact ⟨[], (List.append_nil _).symm, by rw [List.append_nil]; rfl⟩
  | cons a rest ih =>
    obtain ⟨answer, b, answers', hstep, hrest, rfl⟩ := run_cons_eq_some.1 h
    obtain ⟨events, hlogs⟩ := hstep.logs
    obtain ⟨more, hmore, hrun⟩ := ih hrest (log ++ events)
    refine ⟨events ++ more, ?_, ?_⟩
    · rw [hmore, hlogs.log, List.append_assoc]
    · rw [← List.append_assoc]
      exact run_cons_eq_some.2 ⟨answer, _, answers', hlogs.withLog log, hrun, rfl⟩

theorem answers_withLog (c : Client) (log : Log) (actions : List Action) :
    ((c.withLog log).run actions).map Prod.fst = (c.run actions).map Prod.fst := by
  have happrox : ∀ (c : Client) log, Approx ((c.run actions).map Prod.fst)
      (((c.withLog log).run actions).map Prod.fst) := by
    intro c log answers h
    obtain ⟨⟨_, c'⟩, hrun, rfl⟩ := Option.map_eq_some_iff.1 h
    obtain ⟨events, -, hrun'⟩ := run_withLog hrun log
    rw [hrun']
    rfl
  exact (happrox (c.withLog log) c.session.log).antisymm (happrox c log)

end Client

end Conform
